import HeaderDocs.Proofs.Scan.Arrangement
import HeaderDocs.Proofs.Tree.Discreet

/-!
# Scopes that record nothing hidden

A node that hides itself is refused when it is to be recorded, and a comment with the marker takes
out what it would describe. While a source is read, a scope may itself be hidden, and nodes that are
kept aside may be: what is kept track of is that nothing hidden stands below them
(`OpenScope.Clear`), and that a scope which is to be put back does not hide itself
(`OpenScope.Shown`).

* `StaysClear` is what every operation on a scope keeps of this. Its lemmas say so one by one, and are
  chained with `StaysClear.trans`.

What a function returns is described without a look at the comment, so the description of a return
value can hold the marker (`below_function`).
-/
namespace HeaderDocs.Scan

open HeaderDocs.Node

/-! ## Contexts -/

namespace Context

/-- Nothing hidden stands below the nodes that a context holds on to. -/
structure Clear (c : Context) : Prop where
  header : ∀ h, c.header = some h → h.node.Below Discreet
  record : ∀ n, c.record = some (.aside n) → n.Below Discreet
  enumeration : ∀ n, c.enumeration = some (.aside n) → n.Below Discreet
  typeAlias : ∀ n, c.typeAlias = some n →
    n.Below Discreet ∧ n.children.countP (isKind .description) ≤ 1

variable {c d : Context}

theorem Clear.of_refs (h : c.Clear) (he : d.refs = c.refs) : d.Clear := by
  simp only [refs, Prod.mk.injEq] at he
  obtain ⟨h1, h2, h3, h4, -⟩ := he
  exact ⟨h1 ▸ h.header, h2 ▸ h.record, h3 ▸ h.enumeration, h4 ▸ h.typeAlias⟩

theorem clear_ofScope (scope : Node) : (Context.ofScope scope).Clear := ⟨nofun, nofun, nofun, nofun⟩

/-- A context that holds on to no more nodes than before. -/
theorem Clear.forget (h : c.Clear) (hheader : ∀ n, d.header = some n → c.header = some n)
    (hrecord : ∀ p, d.record = some p → c.record = some p)
    (henum : ∀ p, d.enumeration = some p → c.enumeration = some p)
    (halias : ∀ n, d.typeAlias = some n → c.typeAlias = some n) : d.Clear :=
  ⟨fun n hn => h.header n (hheader n hn), fun n hn => h.record n (hrecord _ hn),
    fun n hn => h.enumeration n (henum _ hn), fun n hn => h.typeAlias n (halias n hn)⟩

theorem Clear.withClaim (h : c.Clear) (claim : Option (List Claim)) : Clear { c with claim } :=
  h.forget (fun _ => id) (fun _ => id) (fun _ => id) (fun _ => id)

theorem Clear.withRecord (h : c.Clear) {record : Option Place}
    (hr : ∀ n, record = some (.aside n) → n.Below Discreet) : Clear { c with record } :=
  ⟨h.header, hr, h.enumeration, h.typeAlias⟩

theorem Clear.withEnumeration (h : c.Clear) {enumeration : Option Place}
    (he : ∀ n, enumeration = some (.aside n) → n.Below Discreet) : Clear { c with enumeration } :=
  ⟨h.header, h.record, he, h.typeAlias⟩

theorem Clear.afterBody (h : c.Clear) : c.afterBody.Clear := by
  refine h.forget (fun _ => id) nofun (fun p hp => ?_) (fun _ => id)
  simp only [Context.afterBody] at hp
  split at hp
  · cases hp
  · exact hp

theorem Clear.afterBlock (h : c.Clear) : c.afterBlock.Clear := by
  unfold Context.afterBlock
  dsimp only
  split
  · exact h.afterBody.of_refs rfl
  · exact h.afterBody.of_refs rfl

theorem Clear.dropHeader (h : c.Clear) : c.dropHeader.Clear :=
  h.forget nofun (fun _ => id) (fun _ => id) (fun _ => id)

theorem Clear.settleArgument (h : c.Clear) (path : Option Path) : (c.settleArgument path).Clear :=
  h.withClaim _

/-- Nodes of the scope move, and nodes that are kept aside stay. -/
theorem Clear.afterInsert (h : c.Clear) (path : Path) : (c.afterInsert path).Clear :=
  ⟨forall_of_function? (function?_afterInsert path c) h.header,
    Place.forall_aside_afterInsert h.record, Place.forall_aside_afterInsert h.enumeration,
    h.typeAlias⟩

/-- A node that is taken out is kept aside. -/
theorem Clear.afterRemove (h : c.Clear) (path : Path) {removed : Node}
    (hr : removed.Below Discreet) : (c.afterRemove path removed).Clear :=
  ⟨forall_of_function? (function?_afterRemove path removed c) h.header,
    Place.forall_aside_afterRemove h.record fun _ => hr,
    Place.forall_aside_afterRemove h.enumeration fun _ => hr, h.typeAlias⟩

end Context

/-! ## Nodes that are made -/

theorem Run.everywhere_discreet_toType (run : Run) : run.toType.Everywhere Discreet := by
  have hword : ∀ c ∈ run.toType.children, ∃ text spaced, c = word text spaced := by
    intro c hc
    obtain ⟨f, -, rfl⟩ := List.mem_map.mp hc
    exact ⟨f.text, f.spaced, rfl⟩
  refine everywhere_discreet_of_undescribed nofun (fun c hc => ?_) fun c hc => ?_
  · obtain ⟨text, spaced, rfl⟩ := hword c hc
    exact nofun
  · obtain ⟨text, spaced, rfl⟩ := hword c hc
    exact everywhere_discreet_word text spaced

/-- A node whose only child is a written type. -/
theorem below_singleton_toType {n : Node} {run : Run} (h : n.children = [run.toType]) :
    n.Below Discreet := by
  intro c hc
  rw [h, List.mem_singleton] at hc
  rw [hc]
  exact run.everywhere_discreet_toType

theorem countP_singleton_toType {n : Node} {run : Run} (h : n.children = [run.toType]) :
    n.children.countP (isKind .description) ≤ 1 := by
  rw [h]
  exact Nat.zero_le 1

theorem Declarator.everywhere_discreet_toNode {k : Kind} (d : Declarator) (hk : k ≠ .description) :
    (d.toNode k).Everywhere Discreet := by
  refine everywhere_discreet_of_undescribed hk (fun c hc => ?_) (below_singleton_toType rfl)
  rw [List.mem_singleton.mp hc]
  exact nofun

theorem below_push {n a : Node} (hn : n.Below Discreet) (ha : a.Everywhere Discreet) :
    (n.push a).Below Discreet := by
  intro c hc
  rcases List.mem_append.mp hc with hc | hc
  · exact hn c hc
  · rw [List.mem_singleton.mp hc]
    exact ha

theorem below_function (attrs : Attributes) (run : Run) (comment : Option String) :
    Below Discreet { kind := .function, attrs, children := (OpenScope.resultOf? run comment).toList } := by
  intro c hc
  have hc := Option.mem_toList.mp hc
  unfold OpenScope.resultOf? at hc
  split at hc
  · dsimp only at hc
    split at hc
    · cases hc
    · cases hc
      refine everywhere_iff_below.mpr ⟨discreet_of_kind_result (by simp), below_describe ?_ _⟩
      exact below_singleton_toType rfl
  · cases hc

namespace Context

variable {c : Context}

theorem Clear.addArgument (h : c.Clear) : c.addArgument.Clear := by
  unfold Context.addArgument
  split
  · exact h
  · rename_i head hhead
    split
    · rename_i d _
      refine ⟨?_, h.record, h.enumeration, h.typeAlias⟩
      rintro _ ⟨⟩
      exact below_push (h.header head hhead) (d.everywhere_discreet_toNode nofun)
    · exact (h.withClaim none).of_refs rfl

theorem Clear.endArgument (h : c.Clear) : c.endArgument.Clear := by
  unfold Context.endArgument
  split
  · exact h.addArgument
  · exact h.of_refs rfl

theorem Clear.closeParen (h : c.Clear) : c.closeParen.Clear := by
  unfold Context.closeParen
  dsimp only
  split
  · refine Clear.of_refs (c := { c.endArgument with
      header := c.endArgument.header.map ({ · with argumentsOpen := false }) }) ?_ rfl
    have he := h.endArgument
    exact ⟨forall_of_function? (function?_closeArguments c.endArgument) he.header, he.record,
      he.enumeration, he.typeAlias⟩
  · split
    · exact h.of_refs (refs_pushIfStarted c ")" false)
    · exact h.of_refs rfl

theorem Clear.comma (h : c.Clear) : c.comma.Clear := by
  unfold Context.comma
  split
  · exact h.of_refs rfl
  · split
    · exact h.endArgument
    · exact h.of_refs (by simp)

end Context

/-! ## Scopes -/

namespace OpenScope

/-- Nothing hidden stands below the scope, nor below what its contexts hold on to. -/
structure Clear (s : OpenScope) : Prop where
  below : s.node.Below Discreet
  contexts : ∀ c ∈ s.context :: s.suspended, c.Clear

/-- If the scope is put back, it does not hide itself. -/
def Shown (s : OpenScope) : Prop := s.attached = true → s.node.Discreet

/-- What every operation on a scope keeps. Only records can be detached. -/
structure StaysClear (s t : OpenScope) : Prop where
  clear : t.Clear
  shown : s.Shown → t.Shown
  origin : t.origin = s.origin
  kind : t.node.kind = s.node.kind
  attached : s.node.kind.isRecord = false → t.attached = s.attached

variable {s t u : OpenScope}

theorem Clear.refl (h : s.Clear) : s.StaysClear s := ⟨h, id, rfl, rfl, fun _ => rfl⟩

theorem StaysClear.trans (h : s.StaysClear t) (h' : t.StaysClear u) : s.StaysClear u :=
  ⟨h'.clear, fun hs => h'.shown (h.shown hs), h'.origin.trans h.origin, h'.kind.trans h.kind,
    fun hk => (h'.attached (h.kind ▸ hk)).trans (h.attached hk)⟩

theorem Clear.context (h : s.Clear) : s.context.Clear := h.contexts _ (List.mem_cons_self ..)

theorem Clear.update (h : s.Clear) {f : Context → Context} (hf : (f s.context).Clear) :
    s.StaysClear (s.update f) := by
  refine ⟨⟨h.below, ?_⟩, id, rfl, rfl, fun _ => rfl⟩
  intro c hc
  rcases List.mem_cons.mp hc with rfl | hc
  · exact hf
  · exact h.contexts c (List.mem_cons_of_mem _ hc)

theorem Clear.update_refs (h : s.Clear) {f : Context → Context}
    (hf : (f s.context).refs = s.context.refs) : s.StaysClear (s.update f) :=
  h.update (h.context.of_refs hf)

theorem Clear.updateClaim (h : s.Clear) (claim : Option (List Claim)) :
    s.StaysClear (s.update ({ · with claim })) :=
  h.update (h.context.withClaim claim)

theorem Clear.note (h : s.Clear) (e : Event) : s.StaysClear (s.note e) :=
  ⟨⟨h.below, h.contexts⟩, id, rfl, rfl, fun _ => rfl⟩

theorem Clear.noteRecorded (h : s.Clear) (home : Path) (k : Kind) (name : String) :
    s.StaysClear (s.noteRecorded home k name) := by
  unfold OpenScope.noteRecorded
  dsimp only
  split
  · exact ⟨⟨h.below, h.contexts⟩, id, rfl, rfl, fun _ => rfl⟩
  · exact h.note _

/-! ### Changes of the node -/

theorem Clear.change (h : s.Clear) {node : Node} (hn : s.node.StaysDiscreet node)
    {f : Context → Context} (hf : ∀ c ∈ s.context :: s.suspended, (f c).Clear) :
    s.StaysClear { s.mapContexts f with node } := by
  refine ⟨⟨hn.below h.below, ?_⟩, fun hs ha => hn.discreet (hs ha), rfl, hn.kind, fun _ => rfl⟩
  intro c hc
  have hc : c ∈ (s.context :: s.suspended).map f := hc
  obtain ⟨d, hd, rfl⟩ := List.mem_map.mp hc
  exact hf d hd

theorem Clear.modifyAt (h : s.Clear) {f : Node → Node} {path : Path}
    (hf : ∀ m, s.node.get? path = some m → m.StaysDiscreet (f m)) :
    s.StaysClear (s.modifyAt f path) := by
  have hn := StaysDiscreet.modifyAt hf
  exact ⟨⟨hn.below h.below, h.contexts⟩, fun hs ha => hn.discreet (hs ha), rfl, hn.kind,
    fun _ => rfl⟩

/-- A node below a scope, or the scope itself, has nothing hidden below it. -/
theorem below_get? {n m : Node} (h : n.Below Discreet) {path : Path} (hm : n.get? path = some m) :
    m.Below Discreet := by
  cases path with
  | nil =>
    cases hm
    exact h
  | cons i path =>
    simp only [Node.get?] at hm
    split at hm
    · rename_i c hc
      exact ((h c (List.mem_of_getElem? hc)).get? hm).below
    · cases hm

theorem Clear.removeAt (h : s.Clear) (path : Path) : s.StaysClear (s.removeAt path) := by
  unfold OpenScope.removeAt
  split
  · rename_i removed hr
    exact h.change (StaysDiscreet.removeAt s.node path) fun c hc =>
      (h.contexts c hc).afterRemove path (below_get? h.below hr)
  · exact h.refl

/-- Putting another version of a child in its place. -/
theorem Clear.replaceChild (h : s.Clear) {i : Nat} {child node : Node}
    (hc : s.node.children[i]? = some child) (hkind : node.kind = child.kind)
    (hs : child.kind.isScope = true) (hn : node.Everywhere Discreet) :
    s.StaysClear (s.modifyAt (fun _ => node) [i]) := by
  refine h.modifyAt fun m hm => ?_
  rw [get?_singleton, hc] at hm
  cases hm
  exact .replace hkind hs hn

theorem attached_removeAt (s : OpenScope) (path : Path) :
    (s.removeAt path).attached = s.attached ∧ (s.removeAt path).origin = s.origin := by
  unfold OpenScope.removeAt
  split <;> exact ⟨rfl, rfl⟩

/-- Describing the scope itself puts nothing hidden below it. -/
theorem Clear.describe (h : s.Clear) (raw : String) :
    (s.describe raw).Clear ∧ (s.describe raw).node = s.node.describe raw ∧
      (s.describe raw).attached = s.attached ∧ (s.describe raw).origin = s.origin := by
  have hbelow := below_describe h.below raw
  unfold OpenScope.describe
  dsimp only
  split
  · rename_i i hi
    exact ⟨⟨hbelow, (h.removeAt [i]).clear.contexts⟩, rfl, attached_removeAt s [i]⟩
  · exact ⟨⟨hbelow, h.contexts⟩, rfl, rfl, rfl⟩

/-- The first comment in a record describes it, and detaches it if it holds the marker. -/
theorem Clear.describeRecord (h : s.Clear) (raw : String) (hk : s.node.kind.isRecord = true) :
    s.StaysClear
      (if Comment.isPrivate raw then { s.describe raw with attached := false } else s.describe raw) := by
  obtain ⟨hclear, hnode, hattached, horigin⟩ := h.describe raw
  have hkind : (s.describe raw).node.kind = s.node.kind := by
    rw [hnode]
    exact kind_describe _ _
  split
  · exact ⟨⟨hclear.below, hclear.contexts⟩, fun _ => nofun, horigin, hkind,
      fun hk' => absurd (hk.symm.trans hk') nofun⟩
  · rename_i hraw
    refine ⟨hclear, fun hs ha => ?_, horigin, hkind, fun _ => hattached⟩
    rw [hnode]
    exact (StaysDiscreet.describe (by simpa using hraw) s.node).discreet (hs (hattached ▸ ha))

/-! ### Recording -/

/-- Recording a node below the scope: one that hides itself is refused. -/
theorem Clear.commitTo (h : s.Clear) {home : Path} {node : Node}
    (hhome : ∀ m, s.node.get? home = some m → m.kind.isScope = true) (hn : node.Below Discreet)
    (hd : node.children.countP (isKind .description) ≤ 1) (hk : node.kind ≠ .description) :
    s.StaysClear (s.commitTo home node).1 := by
  refine s.commitTo_cases home node (fun _ => h.note _) (fun _ => h.refl) ?_
  intro m ins room hpublic hm hins hroom
  have hremoved : s.StaysClear room := hroom.of_removeAt h.refl fun i => h.removeAt _
  have hattached : room.attached = s.attached :=
    hroom.of_removeAt (P := (·.attached = s.attached)) rfl fun i => (attached_removeAt s _).1
  have hinsert : s.node.StaysDiscreet
      (s.node.modifyAt (fun m => m.withChildren (ins.apply m.children)) home) := by
    refine StaysDiscreet.modifyAt fun m' hm' => ?_
    cases hm.symm.trans hm'
    exact .insert (hhome m hm) (everywhere_discreet_of_public hn hk hd hpublic) hk hins
  have hput : s.StaysClear (room.insertAt (home ++ [ins.position]) ins.node) := by
    have he : (room.insertAt (home ++ [ins.position]) ins.node).node = _ := hroom.insertAt
    refine ⟨⟨?_, ?_⟩, fun hs hta => ?_, hremoved.origin, ?_, fun _ => hattached⟩
    · rw [he]
      exact hinsert.below h.below
    · intro c hc
      have hc : c ∈ (room.context :: room.suspended).map (.afterInsert _) := hc
      obtain ⟨d, hd, rfl⟩ := List.mem_map.mp hc
      exact (hremoved.clear.contexts d hd).afterInsert _
    · rw [he]
      exact hinsert.discreet (hs (hattached.symm.trans hta))
    · exact (congrArg Node.kind he).trans hinsert.kind
  exact hput.trans (hput.clear.noteRecorded ..)

theorem Clear.commit (h : s.Clear) (hs : s.Sound) {node : Node} (hn : node.Below Discreet)
    (hd : node.children.countP (isKind .description) ≤ 1) (hk : node.kind ≠ .description) :
    s.StaysClear (s.commit node).1 := by
  refine h.commitTo (fun m (hm : s.node.get? [] = some m) => ?_) hn hd hk
  cases hm
  exact hs.scope

theorem Clear.commitNamed (h : s.Clear) (hs : s.Sound) {node : Node} (hn : node.Below Discreet)
    (hd : node.children.countP (isKind .description) ≤ 1) (hk : node.kind ≠ .description) :
    s.StaysClear (s.commitNamed node).1 := by
  unfold OpenScope.commitNamed
  split
  · exact h.refl
  · exact h.commit hs hn hd hk

theorem Clear.commitClaimed (h : s.Clear) (hs : s.Sound) {node : Node} (hn : node.Below Discreet)
    (hd : node.children.countP (isKind .description) ≤ 1) (hk : node.kind ≠ .description) :
    s.StaysClear ((s.commit node).1.update ({ · with claim := claimOn (s.commit node).2 })) := by
  have hc := h.commit hs hn hd hk
  exact hc.trans (hc.clear.updateClaim _)

/-- A declaration with its type as its only part is recorded with its comment. -/
theorem Clear.commitTyped (h : s.Clear) (hs : s.Sound) {node : Node} {run : Run}
    (hchildren : node.children = [run.toType]) (hk : node.kind ≠ .description)
    (comment : Option String) :
    let described := node.describeIf comment
    s.StaysClear
      ((s.commit described).1.update ({ · with claim := claimOn (s.commit described).2 })) := by
  refine h.commitClaimed hs (below_describeIf (below_singleton_toType hchildren) _)
    (countP_describeIf (countP_singleton_toType hchildren) _) ?_
  rw [kind_eq_of_key (key_describeIf _ _)]
  exact hk

theorem Clear.commitAside (h : s.Clear) {home node : Node} (hs : home.kind.isScope = true)
    (hh : home.Below Discreet) (hn : node.Below Discreet)
    (hd : node.children.countP (isKind .description) ≤ 1) (hk : node.kind ≠ .description) :
    s.StaysClear (s.commitAside home node).1 ∧ (s.commitAside home node).2.2.Below Discreet := by
  refine ⟨scope_commitAside h.refl h.note home node, s.aside_commitAside hh ?_⟩
  intro ins hpublic hins
  have hnode := everywhere_discreet_of_public hn hk hd hpublic
  exact (StaysDiscreet.insert hs hnode hk hins).below hh

/-- A node that has been recorded does not hide itself. -/
theorem public_of_commit {node : Node} {path : Path} (h : (s.commit node).2 = some path) :
    node.isPrivate = false := by
  revert h
  exact s.commit_cases node (fun _ => nofun) (fun _ => nofun) fun _ _ hpublic _ _ _ => hpublic

/-- Nothing hidden stands below the node that a place leads to, nor is it hidden in the scope. -/
theorem Clear.below_node? (h : s.Clear) {p : Place} {m : Node}
    (hp : ∀ n, p = .aside n → n.Below Discreet) (hm : p.node? s.node = some m) :
    m.Below Discreet ∧ ∀ i, p = .inScope i → m.Discreet := by
  cases p with
  | inScope i =>
    have he : m.Everywhere Discreet := h.below m (List.mem_of_getElem? hm)
    exact ⟨he.below, fun _ _ => he.self⟩
  | aside n =>
    cases hm
    exact ⟨hp _ rfl, nofun⟩

theorem below_placeOf {node n : Node} (hn : node.Below Discreet) {path : Option Path}
    (hp : some (placeOf node path) = some (.aside n)) : n.Below Discreet := by
  unfold OpenScope.placeOf at hp
  split at hp
  · cases hp
  · cases hp
    exact hn

/-- A function that has been read: no more of its children than one describes it. -/
theorem countP_function {n : Node} (hk : n.Kept) (hf : n.kind = .function) :
    n.children.countP (isKind .description) ≤ 1 := (hk.self.outlined hf).described

/-- A scope that is kept in order has no more than one description. -/
theorem countP_scope {n : Node} (hk : n.Kept) (hs : n.kind.isScope = true) :
    n.children.countP (isKind .description) ≤ 1 := (hk.self.arranged hs).described

theorem Clear.commitHeader (h : s.Clear) (hs : s.Sound) {head : Header}
    (hh : head.Sound s.node) (hn : head.node.Below Discreet) :
    s.StaysClear (s.commitHeader head) := by
  have hk : head.node.kind ≠ .description := by
    rw [hh.function]
    decide
  have hd := countP_function hh.kept hh.function
  have hfinish : ∀ (t : OpenScope) (path : Option Path), s.StaysClear t →
      s.StaysClear (t.update fun c => (c.settleArgument path).dropHeader.dropRun) := fun t path ht =>
    ht.trans (ht.clear.update ((ht.clear.context.settleArgument path).dropHeader.of_refs rfl))
  unfold OpenScope.commitHeader
  dsimp only
  split
  · exact hfinish _ _ (h.commit hs hn hd hk)
  · rename_i i hi
    exact hfinish _ _ (h.commitTo (isScope_at (hh.home _ hi)) hn hd hk)
  · -- the node that is kept aside is not kept any longer
    exact hfinish _ _ (scope_commitAside h.refl h.note _ _)

/-! ### Claims -/

/-- Changing the function whose header is being read. -/
theorem Clear.updateHeader (h : s.Clear) {f : Node → Node}
    (hf : ∀ n, n.Below Discreet → (f n).Below Discreet) :
    s.StaysClear (s.update fun c => { c with header := c.header.map fun head =>
      { head with node := f head.node } }) := by
  have hc := h.context
  refine h.update ⟨?_, hc.record, hc.enumeration, hc.typeAlias⟩
  intro head hhead
  obtain ⟨before, hbefore, rfl⟩ := Option.map_eq_some_iff.mp hhead
  exact hf _ (hc.header before hbefore)

theorem Clear.updateRecord (h : s.Clear) {record : Option Place}
    (hr : ∀ n, record = some (.aside n) → n.Below Discreet) :
    s.StaysClear (s.update ({ · with record })) :=
  h.update (h.context.withRecord hr)

theorem Clear.noteEnumeration (h : s.Clear) {enumeration : Option Place}
    (he : ∀ n, enumeration = some (.aside n) → n.Below Discreet) :
    s.StaysClear (s.update ({ · with enumeration })) :=
  h.update (h.context.withEnumeration he)

theorem Clear.updateEnumeration (h : s.Clear) {node : Node} (hn : node.Below Discreet) :
    s.StaysClear (s.update ({ · with enumeration := some (.aside node) })) := by
  refine h.noteEnumeration ?_
  rintro _ ⟨⟩
  exact hn

theorem Clear.describeClaim (h : s.Clear) {raw : String} (hraw : Comment.isPrivate raw = false)
    (claim : Claim) : s.StaysClear (s.describeClaim raw claim) := by
  have hat : ∀ (n : Node) (path : Path), n.StaysDiscreet (n.modifyAt (·.describe raw) path) :=
    fun n path => StaysDiscreet.modifyAt fun m _ => .describe hraw m
  cases claim with
  | recorded path => exact h.modifyAt fun m _ => .describe hraw m
  | argument =>
    exact h.updateHeader (f := fun n => n.modifyAt (·.describe raw) [n.children.length - 1])
      fun n hn => (hat n _).below hn
  | constant i =>
    simp only [OpenScope.describeClaim]
    split
    · exact h.modifyAt fun m _ => .describe hraw m
    · rename_i node he
      exact h.updateEnumeration ((hat node [i]).below (h.context.enumeration node he))
    · exact h.refl

theorem Clear.withdrawClaim (h : s.Clear) (claim : Claim) : s.StaysClear (s.withdrawClaim claim) := by
  cases claim with
  | recorded path => exact h.removeAt path
  | argument =>
    exact h.updateHeader (f := fun n => n.removeAt [n.children.length - 1])
      fun n hn => (StaysDiscreet.removeAt n _).below hn
  | constant i =>
    simp only [OpenScope.withdrawClaim]
    split
    · exact h.removeAt _
    · rename_i node he
      exact h.updateEnumeration
        ((StaysDiscreet.removeAt node [i]).below (h.context.enumeration node he))
    · exact h.refl

theorem Clear.withdrawFirst (count : Nat) (h : s.Clear) : s.StaysClear (withdrawFirst count s) := by
  induction count generalizing s with
  | zero => exact h.refl
  | succ count ih =>
    unfold OpenScope.withdrawFirst
    split
    · rename_i claim claims hclaim
      have hupdate := h.updateClaim (some claims)
      have hone := hupdate.clear.withdrawClaim claim
      exact (hupdate.trans hone).trans (ih hone.clear)
    · exact h.refl

theorem Clear.describeClaims (h : s.Clear) {raw : String} (hraw : Comment.isPrivate raw = false)
    (claims : List Claim) : s.StaysClear (claims.foldl (OpenScope.describeClaim raw) s) := by
  induction claims generalizing s with
  | nil => exact h.refl
  | cons claim claims ih =>
    have hone := h.describeClaim hraw claim
    exact hone.trans (ih hone.clear)

theorem Clear.settleClaims (h : s.Clear) (raw : String) (claims : List Claim) :
    s.StaysClear (s.settleClaims raw claims) := by
  have hforget : ∀ t : OpenScope, s.StaysClear t →
      s.StaysClear (t.update ({ · with claim := none, joinable := false })) := fun t ht =>
    ht.trans (ht.clear.update ((ht.clear.context.withClaim none).of_refs rfl))
  unfold OpenScope.settleClaims
  dsimp only
  split
  · exact hforget _ (h.withdrawFirst claims.length)
  · rename_i hraw
    exact hforget _ (h.describeClaims (by simpa using hraw) claims)

theorem Clear.takeComment (h : s.Clear) (text : String) (line : Bool) :
    s.StaysClear (s.takeComment text line) := by
  unfold OpenScope.takeComment
  dsimp only
  split
  · exact h.refl
  · split
    · exact h.settleClaims text _
    · split
      · rename_i hrecord
        simp only [Bool.and_eq_true] at hrecord
        exact h.describeRecord text hrecord.1.2
      · split
        · exact h.update_refs rfl
        · exact h.update_refs rfl

/-! ### Declarations -/

theorem Clear.startFunction (h : s.Clear) (word : String) : s.StaysClear (s.startFunction word) := by
  unfold OpenScope.startFunction
  dsimp only
  split
  · exact h.update_refs rfl
  · refine h.update ⟨?_, h.context.record, h.context.enumeration, h.context.typeAlias⟩
    rintro _ ⟨⟩
    exact below_describe (below_function _ _ _) _

theorem Clear.declareVariable (h : s.Clear) (hs : s.Sound) (terminator : Char) :
    s.StaysClear (s.declareVariable terminator) := by
  unfold OpenScope.declareVariable
  split
  · exact h.update_refs rfl
  · rename_i d hd
    have hu := h.update_refs (f := fun c => { c.dropRun.takeComment with
      base := if terminator == ',' then d.type.takeWhile (·.isWord) else [] }) rfl
    have hsu := hs.update_refs (f := fun c => { c.dropRun.takeComment with
      base := if terminator == ',' then d.type.takeWhile (·.isWord) else [] }) rfl
    refine hu.trans (hu.clear.commitTyped hsu.sound rfl ?_ _)
    exact nofun

theorem Clear.declareAlias (h : s.Clear) (hs : s.Sound) (name : String) (type : Run) :
    s.StaysClear (s.declareAlias name type) := by
  unfold OpenScope.declareAlias
  have hu := h.update_refs (f := fun c => { c.takeComment with run := [] }) rfl
  have hsu := hs.update_refs (f := fun c => { c.takeComment with run := [] }) rfl
  refine hu.trans (hu.clear.commitTyped hsu.sound rfl ?_ _)
  exact nofun

theorem Clear.finishAlias (h : s.Clear) (hs : s.Sound) : s.StaysClear s.finishAlias := by
  unfold OpenScope.finishAlias
  dsimp only
  split
  · exact h.declareAlias hs _ _
  · exact h.refl

/-- A node without a name is given one and recorded. -/
theorem Clear.nameAside (h : s.Clear) (hs : s.Sound) (name : String) {place : Option Place}
    (hp : ∀ p, place = some p → p.Sound s.node)
    (hb : ∀ n, place = some (.aside n) → n.Below Discreet) :
    s.StaysClear (s.nameAside name place).1 ∧
      ∀ n, (s.nameAside name place).2 = some (.aside n) → n.Below Discreet := by
  unfold OpenScope.nameAside
  split
  · rename_i node
    obtain ⟨n, hn, hscope, hkept⟩ := hp _ rfl
    cases hn
    split
    · have hk : (node.withName name).kind ≠ .description := by
        intro he
        rw [kind_withName] at he
        rw [he] at hscope
        cases hscope
      have hnode : (node.withName name).Below Discreet := hb node rfl
      exact ⟨h.commit hs hnode (countP_scope (n := node) hkept hscope) hk,
        fun n hn => below_placeOf hnode hn⟩
    · exact ⟨h.refl, hb⟩
  · exact ⟨h.refl, hb⟩

theorem Clear.declareAwaited (h : s.Clear) (hs : s.Sound) (name : String) :
    s.StaysClear (s.declareAwaited name) := by
  unfold OpenScope.declareAwaited
  split
  · rename_i node hnode
    obtain ⟨hbelow, hd⟩ := h.context.typeAlias node hnode
    have hk := (hs.context.typeAlias node hnode).1
    refine h.commitClaimed hs ?_ ?_ ?_
    · intro c hc
      rcases List.mem_cons.mp hc with rfl | hc
      · exact Run.everywhere_discreet_toType _
      · exact hbelow c hc
    · exact hd
    · change node.kind ≠ _
      rw [hk]
      exact nofun
  · exact h.updateClaim none

/-- The end of a declarator after a definition: only claims are left of what was referred to. -/
theorem Clear.endDefinition (h : s.Clear) (aliased : Bool) :
    s.StaysClear (s.update (·.afterDefinition aliased)) :=
  h.update ⟨h.context.header, nofun, nofun, nofun⟩

theorem Clear.declareDefined (h : s.Clear) (hs : s.Sound) (name : String) :
    s.StaysClear (s.declareDefined name) := by
  have hfirst := h.declareAwaited hs name
  have hsfirst := (hs.declareAwaited name).sound
  obtain ⟨hrecord, hrplace⟩ := hfirst.clear.nameAside hsfirst name hsfirst.context.record
    hfirst.clear.context.record
  obtain ⟨hsrecord, hsrplace⟩ := hsfirst.nameAside name hsfirst.context.record
  have hr := hfirst.trans (hrecord.trans (hrecord.clear.updateRecord hrplace))
  have hsr := (hsrecord.sound.updateRecord hsrplace).sound
  obtain ⟨henum, heplace⟩ := hr.clear.nameAside hsr name hsr.context.enumeration
    hr.clear.context.enumeration
  have he := hr.trans (henum.trans (henum.clear.noteEnumeration heplace))
  exact he.trans (he.clear.endDefinition s.context.typeAlias.isSome)

theorem Clear.endDeclarator (h : s.Clear) (hs : s.Sound) (word : String) (terminator : Char) :
    s.StaysClear (s.endDeclarator word terminator) := by
  unfold OpenScope.endDeclarator
  dsimp only
  split
  · exact h.declareDefined hs word
  · split
    · exact h.declareAlias hs _ _
    · have hw := h.update_refs (f := (·.pushWord word)) (Context.refs_pushWord _ word)
      have hsw := hs.update_refs (f := (·.pushWord word)) (Context.refs_pushWord _ word)
      split
      · split
        · exact h.update_refs rfl
        · exact hw.trans (hw.clear.declareVariable hsw.sound terminator)
      · exact hw

theorem Clear.declareConstant (h : s.Clear) (hs : s.Sound) (word : String) :
    s.StaysClear (s.declareConstant word) := by
  have hnode : ∀ raw?, ((ofName .constant word).describeIf raw?).Below Discreet := fun raw? =>
    below_describeIf (by simp [Below, ofName]) raw?
  have hd : ∀ raw?, ((ofName .constant word).describeIf raw?).children.countP (isKind .description) ≤ 1 :=
    fun raw? => countP_describeIf (by simp [ofName]) raw?
  have hkind : ∀ raw?, ((ofName .constant word).describeIf raw?).kind ≠ .description := by
    intro raw?
    rw [kind_eq_of_key (key_describeIf _ _)]
    exact (by decide : Kind.constant ≠ .description)
  have ht := h.update_refs (f := .takeComment) (Context.refs_takeComment _)
  have hst := (hs.update_refs (f := .takeComment) (Context.refs_takeComment _)).sound
  unfold OpenScope.declareConstant
  dsimp only
  split
  · rename_i e he
    have hc := ht.clear.commitTo (isScope_at (hst.context.enumeration _ he))
      (hnode s.context.comment) (hd s.context.comment) (hkind s.context.comment)
    split
    · rename_i t path hcommit
      rw [hcommit] at hc
      exact (ht.trans hc).trans (hc.clear.updateClaim _)
    · rename_i t hcommit
      rw [hcommit] at hc
      exact ht.trans hc
  · rename_i home he
    obtain ⟨n, hn, hscope, -⟩ := hst.context.enumeration _ he
    cases hn
    obtain ⟨hc, hhome⟩ := ht.clear.commitAside hscope (ht.clear.context.enumeration home he)
      (hnode s.context.comment) (hd s.context.comment) (hkind s.context.comment)
    split
    · rename_i t i home' hcommit
      rw [hcommit] at hc hhome
      have hne := hc.clear.updateEnumeration hhome
      exact (ht.trans hc).trans (hne.trans (hne.clear.updateClaim _))
    · rename_i t home' hcommit
      rw [hcommit] at hc
      exact ht.trans hc
  · exact ht

theorem Clear.declarationWord (h : s.Clear) (hs : s.Sound) (word : String) (terminator : Char) :
    s.StaysClear (s.declarationWord word terminator) := by
  unfold OpenScope.declarationWord
  dsimp only
  split
  · exact h.update_refs rfl
  · have hstart := h.update_refs (f := .startRun) (Context.refs_startRun _)
    have hsstart := (hs.update_refs (f := .startRun) (Context.refs_startRun _)).sound
    split
    · exact hstart.trans (hstart.clear.startFunction word)
    · split
      · split
        · exact hstart.trans (hstart.clear.update_refs rfl)
        · refine hstart.trans (hstart.clear.update ?_)
          exact (hstart.clear.context.of_refs (Context.refs_pushWord _ word)).addArgument
      · split
        · exact hstart.trans (hstart.clear.endDeclarator hsstart word terminator)
        · exact hstart.trans (hstart.clear.update_refs (Context.refs_pushWord _ word))

theorem Clear.word (h : s.Clear) (hs : s.Sound) (word : String) (terminator : Char) :
    s.StaysClear (s.word word terminator) := by
  unfold OpenScope.word
  dsimp only
  split
  · exact h.declarationWord hs word terminator
  · split
    · split
      · exact h.declareConstant hs word
      · exact h.refl
    · exact h.update_refs rfl

theorem Clear.endHeader (h : s.Clear) (hs : s.Sound) : s.StaysClear s.endHeader := by
  unfold OpenScope.endHeader
  split
  · rename_i head hhead
    split
    · exact h.commitHeader hs (hs.context.header head hhead) (h.context.header head hhead)
    · exact h.update h.context.dropHeader
  · exact h.refl

theorem Clear.endRun (h : s.Clear) (hs : s.Sound) : s.StaysClear s.endRun := by
  unfold OpenScope.endRun
  split
  · exact h.finishAlias hs
  · split
    · exact h.declareVariable hs ';'
    · exact h.refl

theorem Clear.semicolon (h : s.Clear) (hs : s.Sound) : s.StaysClear s.semicolon := by
  have hheader := h.endHeader hs
  have hrun := hheader.trans (hheader.clear.endRun hs.endHeader.sound)
  unfold OpenScope.semicolon
  refine hrun.trans (hrun.clear.update ?_)
  have hc := hrun.clear.context
  dsimp only
  split
  · exact hc.forget (fun _ => id) nofun nofun nofun
  · exact hc.forget (fun _ => id) nofun (fun _ => id) (fun _ => id)

end OpenScope

end HeaderDocs.Scan
