import HeaderDocs.Proofs.Tree.Arrangement
import HeaderDocs.Proofs.Tree.Paths
import HeaderDocs.Scan.Source

/-!
# What the contexts of a scope refer to

Nodes are recorded early and named, described, replaced and taken out later, so a context refers to
nodes of its scope and to nodes that are kept aside. `Context.Sound` says that these references are
in order: a place that may take further children leads to a scope, the function whose header is
being read is a function, and no claim is on the scope itself.

* `Context.Sound.of_refs`: only the references of a context matter.
* `Context.Sound.afterInsert`, `Context.Sound.afterRemove`: references follow the changes of a scope.
-/
namespace HeaderDocs

open HeaderDocs.Node

/-! ## Paths -/

theorem Path.afterInsert_ne_nil {place path : Path} (h : path ≠ []) :
    Path.afterInsert place path ≠ [] := by
  unfold Path.afterInsert
  split
  · exact h
  · exact absurd rfl h
  · exact List.cons_ne_nil _ _
  · split <;> exact List.cons_ne_nil _ _

namespace Scan

/-! ## Places -/

namespace Place

/-- A place leads to a scope, in which further nodes may be recorded. -/
def Sound (scope : Node) (p : Place) : Prop :=
  ∃ n, p.node? scope = some n ∧ n.kind.isScope = true ∧ n.Kept

variable {scope : Node} {p : Place}

/-- Changes below the children do not matter, as long as the children keep their kinds. -/
theorem Sound.of_kinds {scope' : Node} (h : p.Sound scope) (hk : scope'.Kept)
    (hc : ∀ (i : Nat) (c : Node), scope.children[i]? = some c →
      ∃ c', scope'.children[i]? = some c' ∧ c'.kind = c.kind) : p.Sound scope' := by
  obtain ⟨n, hn, hs, hkept⟩ := h
  cases p with
  | aside m => exact ⟨n, hn, hs, hkept⟩
  | inScope i =>
    obtain ⟨c', hc', he⟩ := hc i n hn
    exact ⟨c', hc', he ▸ hs, hk.child (List.mem_of_getElem? hc')⟩

/-- Changing one child without its kind changes no kind at any position. -/
theorem kinds_modify {cs : List Node} {f : Node → Node} {j : Nat}
    (hf : ∀ c, (f c).kind = c.kind) (i : Nat) (c : Node) (h : cs[i]? = some c) :
    ∃ c', (cs.modify j f)[i]? = some c' ∧ c'.kind = c.kind := by
  rw [List.getElem?_modify, h]
  by_cases hij : j = i
  · exact ⟨f c, by simp [hij], hf c⟩
  · exact ⟨c, by simp [hij], rfl⟩

theorem Sound.insertAt (h : p.Sound scope) {new : Node} {path : Path}
    (hk : (scope.insertAt new path).Kept) :
    (p.afterInsert path).Sound (scope.insertAt new path) := by
  cases p with
  | aside m => exact h
  | inScope j =>
    match path with
    | [] => exact h
    | [i] =>
      obtain ⟨n, hn, hs, hkept⟩ := h
      refine ⟨n, ?_, hs, hkept⟩
      have hg : scope.get? [j] = some n := by
        simp only [node?] at hn
        simp [Node.get?, hn]
      have := get?_insertAt_afterInsert new scope n i j [] hg
      simp only [Path.afterInsert, Node.get?] at this
      simp only [afterInsert, Path.afterInsert, node?]
      split at this
      · rename_i hc
        rw [hc]
        exact this
      · cases this
    | i :: k :: rest =>
      have hp : (inScope j).afterInsert (i :: k :: rest) = inScope j := by
        unfold afterInsert Path.afterInsert
        by_cases hij : i = j <;> simp [hij, Path.afterInsert]
      rw [hp]
      exact h.of_kinds hk (kinds_modify fun c => kind_eq_of_key (key_insertAt c new (k :: rest)))

theorem Sound.removeAt (h : p.Sound scope) {removed : Node} {path : Path}
    (hs : scope.kind.isScope = true) (hscope : scope.Kept) (hr : scope.get? path = some removed)
    (hk : (scope.removeAt path).Kept) :
    (p.afterRemove path removed).Sound (scope.removeAt path) := by
  cases p with
  | aside m => exact h
  | inScope j =>
    match path with
    | [] =>
      cases hr
      exact ⟨scope, rfl, hs, hscope⟩
    | [i] =>
      obtain ⟨n, hn, hsn, hkept⟩ := h
      simp only [node?] at hn
      by_cases hij : i = j
      · -- the node itself is taken out, and kept aside
        subst hij
        simp only [Node.get?, hn, Option.some.injEq] at hr
        subst hr
        refine ⟨n, ?_, hsn, hkept⟩
        simp [afterRemove, Path.afterRemove?, node?]
      · refine ⟨n, ?_, hsn, hkept⟩
        simp only [afterRemove, Path.afterRemove?, hij, if_false, node?, Node.removeAt,
          List.getElem?_eraseIdx]
        by_cases hlt : i < j
        · rw [if_pos hlt, if_neg (by omega), Nat.sub_add_cancel (by omega)]
          exact hn
        · rw [if_neg hlt, if_pos (by omega)]
          exact hn
    | i :: k :: rest =>
      have hp : (inScope j).afterRemove (i :: k :: rest) removed = inScope j := by
        unfold afterRemove Path.afterRemove?
        by_cases hij : i = j <;> simp [hij, Path.afterRemove?]
      rw [hp]
      exact h.of_kinds hk (kinds_modify fun c => kind_eq_of_key (key_removeAt c (k :: rest)))

theorem aside_of_afterInsert {path : Path} {p? : Option Place} {n : Node}
    (h : p?.map (afterInsert path) = some (aside n)) : p? = some (aside n) := by
  obtain ⟨p, rfl, he⟩ := Option.map_eq_some_iff.mp h
  cases p with
  | aside m => exact congrArg some he
  | inScope i =>
    simp only [afterInsert] at he
    split at he <;> cases he

theorem aside_of_afterRemove {path : Path} {removed : Node} {p? : Option Place} {n : Node}
    (h : p?.map (afterRemove path removed) = some (aside n)) :
    p? = some (aside n) ∨ n = removed ∧ ∃ i, Path.afterRemove? path [i] = none := by
  obtain ⟨p, rfl, he⟩ := Option.map_eq_some_iff.mp h
  cases p with
  | aside m => exact .inl (congrArg some he)
  | inScope i =>
    simp only [afterRemove] at he
    split at he
    · cases he
    · cases he
    · rename_i hnone
      cases he
      exact .inr ⟨rfl, i, hnone⟩

/-- What holds of a node that is kept aside still holds when a node is put into the scope. -/
theorem forall_aside_afterInsert {Q : Node → Prop} {path : Path} {p? : Option Place}
    (h : ∀ n, p? = some (aside n) → Q n) :
    ∀ n, p?.map (afterInsert path) = some (aside n) → Q n :=
  fun n hn => h n (aside_of_afterInsert hn)

/-- So it does when a node is taken out, if it holds of that node where it is put aside. -/
theorem forall_aside_afterRemove {Q : Node → Prop} {path : Path} {removed : Node}
    {p? : Option Place} (h : ∀ n, p? = some (aside n) → Q n)
    (hr : (∃ i, Path.afterRemove? path [i] = none) → Q removed) :
    ∀ n, p?.map (afterRemove path removed) = some (aside n) → Q n := by
  intro n hn
  rcases aside_of_afterRemove hn with hn | ⟨rfl, hi⟩
  · exact h n hn
  · exact hr hi

end Place

/-- The function whose header is being read. -/
def Context.function? (c : Context) : Option Node := c.header.map (·.node)

/-- What holds of the function whose header is being read still holds if it is the same function. -/
theorem Context.forall_of_function? {Q : Node → Prop} {c d : Context}
    (he : d.function? = c.function?) (h : ∀ head, c.header = some head → Q head.node) :
    ∀ head, d.header = some head → Q head.node := by
  intro head hhead
  have hnode : c.function? = some head.node := he ▸ congrArg (Option.map Header.node) hhead
  obtain ⟨before, hbefore, hbefore'⟩ := Option.map_eq_some_iff.mp hnode
  exact hbefore' ▸ h before hbefore

theorem Context.function?_afterInsert (path : Path) (c : Context) :
    (c.afterInsert path).function? = c.function? :=
  Option.map_map ..

theorem Context.function?_afterRemove (path : Path) (removed : Node) (c : Context) :
    (c.afterRemove path removed).function? = c.function? :=
  Option.map_map ..

theorem Context.function?_closeArguments (c : Context) :
    Context.function? { c with header := c.header.map ({ · with argumentsOpen := false }) } =
      c.function? :=
  Option.map_map ..

/-! ## Contexts -/

/-- The function whose header is being read is a function, and what it is to be recorded in is a
scope. -/
structure Header.Sound (scope : Node) (h : Header) : Prop where
  function : h.node.kind = .function
  kept : h.node.Kept
  home : ∀ p, h.home = some p → p.Sound scope

namespace Context

/-- What a context refers to: all that the nodes of a scope have to do with. -/
structure Sound (scope : Node) (c : Context) : Prop where
  header : ∀ h, c.header = some h → h.Sound scope
  record : ∀ p, c.record = some p → p.Sound scope
  enumeration : ∀ p, c.enumeration = some p → p.Sound scope
  typeAlias : ∀ n, c.typeAlias = some n → n.kind = .typeAlias ∧ n.Kept
  claim : ∀ claims, c.claim = some claims → ∀ path, .recorded path ∈ claims → path ≠ []

def refs (c : Context) :
    Option Header × Option Place × Option Place × Option Node × Option (List Claim) :=
  (c.header, c.record, c.enumeration, c.typeAlias, c.claim)

variable {scope : Node} {c d : Context}

theorem Sound.of_refs (h : c.Sound scope) (he : d.refs = c.refs) : d.Sound scope := by
  simp only [refs, Prod.mk.injEq] at he
  obtain ⟨h1, h2, h3, h4, h5⟩ := he
  exact ⟨h1 ▸ h.header, h2 ▸ h.record, h3 ▸ h.enumeration, h4 ▸ h.typeAlias, h5 ▸ h.claim⟩

theorem Sound.withClaim (h : c.Sound scope) {claim : Option (List Claim)}
    (hc : ∀ claims, claim = some claims → ∀ path, .recorded path ∈ claims → path ≠ []) :
    Sound scope { c with claim } :=
  ⟨h.header, h.record, h.enumeration, h.typeAlias, hc⟩

theorem Sound.forgetClaim (h : c.Sound scope) : Sound scope { c with claim := none } :=
  h.withClaim nofun

theorem sound_ofScope (scope : Node) : (Context.ofScope scope).Sound scope :=
  ⟨nofun, nofun, nofun, nofun, nofun⟩

@[simp] theorem refs_startRun (c : Context) : c.startRun.refs = c.refs := by
  unfold startRun
  split <;> rfl

@[simp] theorem refs_takeComment (c : Context) : c.takeComment.refs = c.refs := rfl

@[simp] theorem refs_pushWord (c : Context) (word : String) : (c.pushWord word).refs = c.refs :=
  refs_startRun c

@[simp] theorem refs_pushMark (c : Context) (mark : String) : (c.pushMark mark).refs = c.refs := by
  have h := refs_startRun c
  unfold pushMark
  dsimp only
  split
  · exact h
  · exact h

@[simp] theorem refs_pushIfStarted (c : Context) (text : String) (spaced : Bool) :
    (c.pushIfStarted text spaced).refs = c.refs := by
  unfold pushIfStarted
  split <;> rfl

@[simp] theorem refs_pushFragment (c : Context) (text : String) (spaced : Bool) :
    (c.pushFragment text spaced).refs = c.refs := by
  rw [pushFragment, refs_pushIfStarted, refs_startRun]

@[simp] theorem refs_openParen (c : Context) : c.openParen.refs = c.refs := refs_pushMark c "("

@[simp] theorem refs_equals (c : Context) : c.equals.refs = c.refs := by
  unfold equals
  split
  · rfl
  · exact refs_pushMark c "="

/-- What a context refers to after the closing brace of a body. -/
def afterBody (c : Context) : Context :=
  { c with
    enumeration := if c.typeAlias.isNone then none else c.enumeration
    inValue := false
    record := none
    claim := none }

/-- What a context refers to after the closing brace of a block whose contents are not recorded. -/
def afterBlock (c : Context) : Context :=
  let d := { c.afterBody with braces := c.braces - 1 }
  if d.braces == 0 then { d with comment := none, runComment := none } else d

/-- The context behind the first declarator after a definition. Of what it referred to only claims
are left; if that declarator names the type, what has been defined is claimed as well. -/
def afterDefinition (aliased : Bool) (c : Context) : Context :=
  { c with
    run := [], typeAlias := none, record := none, enumeration := none
    claim := if aliased then c.claim.map (· ++
      (OpenScope.claimOnPlace c.record ++ OpenScope.claimOnPlace c.enumeration)) else none }

theorem Sound.afterBody (h : c.Sound scope) : c.afterBody.Sound scope := by
  refine ⟨h.header, nofun, ?_, h.typeAlias, nofun⟩
  intro p hp
  simp only [Context.afterBody] at hp
  split at hp
  · cases hp
  · exact h.enumeration p hp

theorem Sound.afterBlock (h : c.Sound scope) : c.afterBlock.Sound scope := by
  unfold Context.afterBlock
  dsimp only
  split
  · exact h.afterBody.of_refs rfl
  · exact h.afterBody.of_refs rfl

theorem Sound.dropHeader (h : c.Sound scope) : c.dropHeader.Sound scope := by
  refine ⟨nofun, h.record, h.enumeration, h.typeAlias, ?_⟩
  intro claims hclaims path hpath
  obtain ⟨before, hbefore, rfl⟩ := Option.map_eq_some_iff.mp hclaims
  exact h.claim before hbefore path (List.mem_filter.mp hpath).1

/-- A claim on the last argument becomes one on the place where it was recorded. -/
theorem Sound.settleArgument (h : c.Sound scope) {path : Option Path} (hp : path ≠ some []) :
    (c.settleArgument path).Sound scope := by
  refine ⟨h.header, h.record, h.enumeration, h.typeAlias, ?_⟩
  intro claims hclaims q hq
  obtain ⟨before, hbefore, rfl⟩ := Option.map_eq_some_iff.mp hclaims
  obtain ⟨claim, hclaim, he⟩ := List.mem_filterMap.mp hq
  cases claim with
  | recorded q' =>
    cases he
    exact h.claim before hbefore q hclaim
  | argument =>
    obtain ⟨q', hq', he⟩ := Option.map_eq_some_iff.mp he
    cases he
    rintro rfl
    exact hp hq'
  | constant i => cases he

end Context

/-! ## Nodes that are made -/

theorem Run.kept_toType (run : Run) : run.toType.Kept := by
  refine kept_of_children (wellKept_of_kind rfl rfl) fun c hc => ?_
  obtain ⟨f, -, rfl⟩ := List.mem_map.mp hc
  exact kept_word _ _

theorem Declarator.kept_toNode {k : Kind} (d : Declarator) (hs : k.isScope = false)
    (hf : (k == .function) = false) : (d.toNode k).Kept := by
  refine kept_of_children (wellKept_of_kind hs hf) fun c hc => ?_
  rw [List.mem_singleton.mp hc]
  exact Run.kept_toType _

theorem kept_push_argument {n a : Node} (hf : n.kind = .function) (hn : n.Kept)
    (hk : a.kind = .argument) (ha : a.Kept) : (n.push a).Kept := by
  have ho := hn.self.outlined hf
  refine kept_of_children ⟨fun hs => ?_, fun _ => ⟨?_, ?_, ?_⟩⟩ ?_
  · change n.kind.isScope = true at hs
    rw [hf] at hs
    cases hs
  · simpa [List.countP_append, isKind, hk] using ho.results
  · simpa [List.countP_append, isKind, hk] using ho.described
  · intro c hc
    rcases List.mem_append.mp hc with hc | hc
    · exact ho.parts c hc
    · rw [List.mem_singleton.mp hc]
      exact .inr (.inr hk)
  · intro c hc
    rcases List.mem_append.mp hc with hc | hc
    · exact hn.child hc
    · rw [List.mem_singleton.mp hc]
      exact ha

namespace Context

variable {scope : Node} {c : Context}

theorem Sound.addArgument (h : c.Sound scope) : c.addArgument.Sound scope := by
  unfold Context.addArgument
  split
  · exact h
  · rename_i head hhead
    have hh := h.header head hhead
    split
    · rename_i d _
      refine ⟨?_, h.record, h.enumeration, h.typeAlias, ?_⟩
      · rintro _ ⟨⟩
        exact ⟨hh.function, kept_push_argument hh.function hh.kept rfl (d.kept_toNode rfl rfl),
          hh.home⟩
      · rintro _ ⟨⟩ path hpath
        rw [List.mem_singleton] at hpath
        cases hpath
    · exact h.forgetClaim.of_refs rfl

theorem Sound.endArgument (h : c.Sound scope) : c.endArgument.Sound scope := by
  unfold Context.endArgument
  split
  · exact h.addArgument
  · exact h.of_refs rfl

theorem Sound.closeArguments (h : c.Sound scope) :
    Sound scope { c with header := c.header.map ({ · with argumentsOpen := false }) } := by
  refine ⟨?_, h.record, h.enumeration, h.typeAlias, h.claim⟩
  intro head hhead
  obtain ⟨h', hh', rfl⟩ := Option.map_eq_some_iff.mp hhead
  have := h.header h' hh'
  exact ⟨this.function, this.kept, this.home⟩

theorem Sound.closeParen (h : c.Sound scope) : c.closeParen.Sound scope := by
  unfold Context.closeParen
  dsimp only
  split
  · exact h.endArgument.closeArguments.of_refs rfl
  · split
    · exact h.of_refs (refs_pushIfStarted c ")" false)
    · exact h.of_refs rfl

theorem Sound.comma (h : c.Sound scope) : c.comma.Sound scope := by
  unfold Context.comma
  split
  · exact h.of_refs rfl
  · split
    · exact h.endArgument
    · exact h.of_refs (by simp)

theorem Sound.afterInsert (h : c.Sound scope) {new : Node} {path : Path}
    (hk : (scope.insertAt new path).Kept) :
    (c.afterInsert path).Sound (scope.insertAt new path) := by
  refine ⟨?_, ?_, ?_, h.typeAlias, ?_⟩
  · intro head hhead
    obtain ⟨h', hh', rfl⟩ := Option.map_eq_some_iff.mp hhead
    have hs := h.header h' hh'
    refine ⟨hs.function, hs.kept, ?_⟩
    intro p hp
    obtain ⟨p', hp', rfl⟩ := Option.map_eq_some_iff.mp hp
    exact (hs.home p' hp').insertAt hk
  · intro p hp
    obtain ⟨p', hp', rfl⟩ := Option.map_eq_some_iff.mp hp
    exact (h.record p' hp').insertAt hk
  · intro p hp
    obtain ⟨p', hp', rfl⟩ := Option.map_eq_some_iff.mp hp
    exact (h.enumeration p' hp').insertAt hk
  · intro claims hclaims q hq
    obtain ⟨before, hbefore, rfl⟩ := Option.map_eq_some_iff.mp hclaims
    obtain ⟨claim, hclaim, he⟩ := List.mem_map.mp hq
    cases claim with
    | recorded q' =>
      cases he
      exact Path.afterInsert_ne_nil (h.claim before hbefore q' hclaim)
    | argument => cases he
    | constant i => cases he

theorem Sound.afterRemove (h : c.Sound scope) {removed : Node} {path : Path}
    (hs : scope.kind.isScope = true) (hscope : scope.Kept) (hr : scope.get? path = some removed)
    (hk : (scope.removeAt path).Kept) :
    (c.afterRemove path removed).Sound (scope.removeAt path) := by
  refine ⟨?_, ?_, ?_, h.typeAlias, ?_⟩
  · intro head hhead
    obtain ⟨h', hh', rfl⟩ := Option.map_eq_some_iff.mp hhead
    have hsound := h.header h' hh'
    refine ⟨hsound.function, hsound.kept, ?_⟩
    intro p hp
    obtain ⟨p', hp', rfl⟩ := Option.map_eq_some_iff.mp hp
    exact (hsound.home p' hp').removeAt hs hscope hr hk
  · intro p hp
    obtain ⟨p', hp', rfl⟩ := Option.map_eq_some_iff.mp hp
    exact (h.record p' hp').removeAt hs hscope hr hk
  · intro p hp
    obtain ⟨p', hp', rfl⟩ := Option.map_eq_some_iff.mp hp
    exact (h.enumeration p' hp').removeAt hs hscope hr hk
  · intro claims hclaims q hq
    obtain ⟨before, hbefore, rfl⟩ := Option.map_eq_some_iff.mp hclaims
    obtain ⟨claim, hclaim, he⟩ := List.mem_filterMap.mp hq
    cases claim with
    | recorded q' =>
      obtain ⟨r, hr', he⟩ := Option.map_eq_some_iff.mp he
      cases he
      exact Path.afterRemove?_ne_nil (h.claim before hbefore q' hclaim) hr'
    | argument => cases he
    | constant i => cases he

/-- A change of the scope that keeps the kinds of its children does not concern its contexts. -/
theorem Sound.of_kinds {scope' : Node} (h : c.Sound scope) (hk : scope'.Kept)
    (hc : ∀ (i : Nat) (n : Node), scope.children[i]? = some n →
      ∃ n', scope'.children[i]? = some n' ∧ n'.kind = n.kind) : c.Sound scope' where
  header := fun head hhead =>
    have hs := h.header head hhead
    ⟨hs.function, hs.kept, fun p hp => (hs.home p hp).of_kinds hk hc⟩
  record := fun p hp => (h.record p hp).of_kinds hk hc
  enumeration := fun p hp => (h.enumeration p hp).of_kinds hk hc
  typeAlias := h.typeAlias
  claim := h.claim

end Context

end Scan

end HeaderDocs
