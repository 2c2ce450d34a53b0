import HeaderDocs.Proofs.Scan.References

/-!
# Scopes being filled are kept in order

`OpenScope.Sound` says that the node being filled is kept in order everywhere, and that all contexts
open in it refer to it properly. Every operation on a scope keeps this, and leaves the scope the
same node: `OpenScope.Continues`.

* `commitTo_cases`: what recording a node below the scope can do.
* `Sound.commitTo`: recording a node below the scope, and where it is found then.
* `Sound.settleClaims`: what a comment does to the nodes it is claimed for.
* `Sound.word`, `Sound.semicolon`: what declarations do.
-/
namespace HeaderDocs.Scan

open HeaderDocs.Node

namespace OpenScope

/-- The scope is kept in order, and its contexts refer to it properly. -/
structure Sound (s : OpenScope) : Prop where
  scope : s.node.kind.isScope = true
  kept : s.node.Kept
  contexts : ∀ c ∈ s.context :: s.suspended, c.Sound s.node

/-- What every operation on a scope keeps: the scope is sound afterwards, and is still the same
node, opened for the same reason. -/
structure Continues (s t : OpenScope) : Prop where
  sound : t.Sound
  origin : t.origin = s.origin
  key : t.node.key = s.node.key
  access : t.node.scope = s.node.scope

variable {s t u : OpenScope}

theorem Sound.refl (h : s.Sound) : s.Continues s := ⟨h, rfl, rfl, rfl⟩

theorem Continues.trans (h : s.Continues t) (h' : t.Continues u) : s.Continues u :=
  ⟨h'.sound, h'.origin.trans h.origin, h'.key.trans h.key, h'.access.trans h.access⟩

/-! ## Contexts and reports -/

theorem Sound.context (h : s.Sound) : s.context.Sound s.node :=
  h.contexts _ (List.mem_cons_self ..)

theorem Sound.update (h : s.Sound) {f : Context → Context} (hf : (f s.context).Sound s.node) :
    s.Continues (s.update f) := by
  refine ⟨⟨h.scope, h.kept, ?_⟩, rfl, rfl, rfl⟩
  intro c hc
  rcases List.mem_cons.mp hc with rfl | hc
  · exact hf
  · exact h.contexts c (List.mem_cons_of_mem _ hc)

theorem Sound.update_refs (h : s.Sound) {f : Context → Context}
    (hf : (f s.context).refs = s.context.refs) : s.Continues (s.update f) :=
  h.update (h.context.of_refs hf)

theorem Sound.note (h : s.Sound) (e : Event) : s.Continues (s.note e) :=
  ⟨⟨h.scope, h.kept, h.contexts⟩, rfl, rfl, rfl⟩

theorem Sound.noteRecorded (h : s.Sound) (home : Path) (k : Kind) (name : String) :
    s.Continues (s.noteRecorded home k name) := by
  unfold OpenScope.noteRecorded
  dsimp only
  split
  · exact ⟨⟨h.scope, h.kept, h.contexts⟩, rfl, rfl, rfl⟩
  · exact h.note _

/-! ## Changes of the node -/

theorem Sound.insertAt (h : s.Sound) {path : Path} {new : Node}
    (hk : (s.node.insertAt new path).Kept) : s.Continues (s.insertAt path new) := by
  have hkey := key_insertAt s.node new path
  refine ⟨⟨?_, hk, ?_⟩, rfl, hkey, scope_insertAt s.node new path⟩
  · exact (congrArg Kind.isScope (kind_eq_of_key hkey)).trans h.scope
  · intro c hc
    have hc : c ∈ (s.context :: s.suspended).map (.afterInsert path) := hc
    obtain ⟨d, hd, rfl⟩ := List.mem_map.mp hc
    exact (h.contexts d hd).afterInsert hk

theorem Sound.removeAt (h : s.Sound) (path : Path) : s.Continues (s.removeAt path) := by
  unfold OpenScope.removeAt
  split
  · rename_i removed hr
    obtain ⟨hk, hkey⟩ := Kept.removeAt h.kept path
    refine ⟨⟨?_, hk, ?_⟩, rfl, hkey, scope_removeAt s.node path⟩
    · exact (congrArg Kind.isScope (kind_eq_of_key hkey)).trans h.scope
    · intro c hc
      have hc : c ∈ (s.context :: s.suspended).map (.afterRemove path removed) := hc
      obtain ⟨d, hd, rfl⟩ := List.mem_map.mp hc
      exact (h.contexts d hd).afterRemove h.scope h.kept hr hk
  · exact h.refl

theorem Sound.describeAt (h : s.Sound) (raw : String) {path : Path} (hp : path ≠ []) :
    s.Continues (s.modifyAt (·.describe raw) path) := by
  obtain ⟨hk, hkey⟩ := Kept.describeAt h.kept raw path
  have haccess : (s.node.modifyAt (·.describe raw) path).scope = s.node.scope := by
    cases path with
    | nil => exact absurd rfl hp
    | cons i path => rfl
  refine ⟨⟨?_, hk, ?_⟩, rfl, hkey, haccess⟩
  · exact (congrArg Kind.isScope (kind_eq_of_key hkey)).trans h.scope
  · intro c hc
    refine (h.contexts c hc).of_kinds hk ?_
    cases path with
    | nil => exact absurd rfl hp
    | cons i path =>
      exact Place.kinds_modify fun m => kind_eq_of_key (key_modifyAt (key_describe · raw) m path)

/-- Putting another version of a child in its place. -/
theorem Sound.replaceChild (h : s.Sound) {i : Nat} {child node : Node}
    (hc : s.node.children[i]? = some child) (hn : node.Kept) (hkey : node.key = child.key) :
    s.Continues (s.modifyAt (fun _ => node) [i]) := by
  have hchild : ∀ m, s.node.get? [i] = some m → node.Kept ∧ node.key = m.key := by
    intro m hm
    simp only [Node.get?, hc, Option.some.injEq] at hm
    exact ⟨hn, hm ▸ hkey⟩
  obtain ⟨hk, he⟩ := h.kept.modifyAt (f := fun _ => node) wellKept_isLocal hchild
  refine ⟨⟨h.scope, hk, ?_⟩, rfl, he, rfl⟩
  intro c hcon
  refine (h.contexts c hcon).of_kinds hk ?_
  intro j m hm
  simp only [OpenScope.modifyAt, Node.modifyAt, List.getElem?_modify, hm]
  by_cases hij : i = j
  · subst hij
    rw [hc] at hm
    cases hm
    exact ⟨node, by simp, kind_eq_of_key hkey⟩
  · exact ⟨m, by simp [hij], rfl⟩

/-- Replacing the node by one that has the same children and perhaps more after them. -/
theorem Sound.extend (h : s.Sound) {node : Node} {more : List Node} (hn : node.Kept)
    (hk : node.kind = s.node.kind) (hc : node.children = s.node.children ++ more) :
    Sound { s with node } := by
  refine ⟨(congrArg Kind.isScope hk).trans h.scope, hn, ?_⟩
  intro c hcon
  refine (h.contexts c hcon).of_kinds hn ?_
  intro i m hm
  refine ⟨m, ?_, rfl⟩
  have hlt : i < s.node.children.length := (List.getElem?_eq_some_iff.mp hm).1
  rw [hc, List.getElem?_append_left hlt]
  exact hm

/-- Describing the scope itself, whose old description is taken out. -/
theorem Sound.describe (h : s.Sound) (raw : String) : s.Continues (s.describe raw) := by
  have hk : (s.node.describe raw).Kept := Kept.describe h.kept raw
  have hcs := children_describe s.node raw
  unfold OpenScope.describe
  dsimp only
  split
  · rename_i i hi
    have herase : s.node.children.eraseP (isKind .description) = s.node.children.eraseIdx i := by
      rw [List.eraseP_eq_eraseIdx, hi]
    obtain ⟨hlt, -, -⟩ := List.findIdx?_eq_some_iff_getElem.mp hi
    have hnode : (s.removeAt [i]).node = s.node.withChildren (s.node.children.eraseIdx i) := by
      simp [OpenScope.removeAt, Node.get?, List.getElem?_eq_getElem hlt, mapContexts, Node.removeAt,
        Node.withChildren]
    have hr := h.removeAt [i]
    refine ⟨hr.sound.extend hk ?_ (by rw [hcs, herase, hnode]; rfl), hr.origin, key_describe _ _,
      scope_describe _ _⟩
    rw [hnode, kind_describe]
    rfl
  · rename_i hi
    have herase : s.node.children.eraseP (isKind .description) = s.node.children := by
      rw [List.eraseP_eq_eraseIdx, hi]
    exact ⟨h.extend hk (kind_describe _ _) (by rw [hcs, herase]), rfl, key_describe _ _,
      scope_describe _ _⟩

/-! ## Recording -/

theorem node_removeAt (s : OpenScope) (path : Path) :
    (s.removeAt path).node = s.node.removeAt path := by
  unfold OpenScope.removeAt
  split
  · rfl
  · rename_i hr
    exact (removeAt_of_get?_none hr).symm

theorem node_noteRecorded (s : OpenScope) (home : Path) (k : Kind) (name : String) :
    (s.noteRecorded home k name).node = s.node := by
  unfold OpenScope.noteRecorded
  dsimp only
  split <;> rfl

/-- The scope before a node is put in: the one that it replaces has been taken out. -/
inductive MakesRoom (s : OpenScope) (home : Path) (ins : Insertion) : OpenScope → Prop
  | same (h : ins.replaced = none) : MakesRoom s home ins s
  | removed {i : Nat} (h : ins.replaced = some i) : MakesRoom s home ins (s.removeAt (home ++ [i]))

/-- What holds of the scope, and after a child of `home` is taken out, holds when there is room. -/
theorem MakesRoom.of_removeAt {P : OpenScope → Prop} {home : Path} {ins : Insertion}
    (h : s.MakesRoom home ins t) (hs : P s) (hr : ∀ i, P (s.removeAt (home ++ [i]))) : P t := by
  cases h with
  | same => exact hs
  | removed => exact hr _

theorem MakesRoom.insertAt {home : Path} {ins : Insertion} (h : s.MakesRoom home ins t) :
    t.node.insertAt ins.node (home ++ [ins.position]) =
      s.node.modifyAt (fun m => m.withChildren (ins.apply m.children)) home := by
  cases h with
  | same h => exact insertAt_of_replaced_none h s.node home
  | removed h => rw [node_removeAt, insertAt_removeAt h]

/-- Recording a node below the scope: it is refused because it is private or cannot be inserted, or
it is put in where there is room. -/
@[elab_as_elim] theorem commitTo_cases {motive : OpenScope × Option Path → Prop} (s : OpenScope)
    (home : Path) (node : Node)
    (hidden : node.isPrivate = true →
      motive (s.note (.skippedPrivate node.kind (node.name.getD "")), none))
    (refused : (s.node.get? home).bind (·.insertion? node) = none → motive (s, none))
    (recorded : ∀ m ins room, node.isPrivate = false → s.node.get? home = some m →
      m.insertion? node = some ins → s.MakesRoom home ins room →
        motive ((room.insertAt (home ++ [ins.position]) ins.node).noteRecorded home node.kind
          (node.name.getD ""), some (home ++ [ins.position]))) :
    motive (s.commitTo home node) := by
  unfold OpenScope.commitTo
  dsimp only
  split
  · rename_i hprivate
    exact hidden hprivate
  · rename_i hpublic
    split
    · rename_i hnone
      exact refused hnone
    · rename_i ins hm
      obtain ⟨m, hm, hins⟩ := Option.bind_eq_some_iff.mp hm
      refine recorded m ins _ (by simpa using hpublic) hm hins ?_
      split
      · rename_i i hi
        exact .removed hi
      · rename_i hi
        exact .same hi

@[elab_as_elim] theorem commit_cases {motive : OpenScope × Option Path → Prop} (s : OpenScope)
    (node : Node)
    (hidden : node.isPrivate = true →
      motive (s.note (.skippedPrivate node.kind (node.name.getD "")), none))
    (refused : s.node.insertion? node = none → motive (s, none))
    (recorded : ∀ ins room, node.isPrivate = false → s.node.insertion? node = some ins →
      s.MakesRoom [] ins room →
        motive
          ((room.insertAt [ins.position] ins.node).noteRecorded [] node.kind (node.name.getD ""),
            some [ins.position])) :
    motive (s.commit node) := by
  unfold OpenScope.commit
  refine s.commitTo_cases [] node hidden refused fun m ins room hpublic hm hins hroom => ?_
  cases hm
  exact recorded ins room hpublic hins hroom

/-- What the changes that recording a node makes keep, holds of the context then. -/
theorem commitTo_context {P : Context → Prop} {home : Path} (h : P s.context)
    (hinsert : ∀ i c, P c → P (c.afterInsert (home ++ [i])))
    (hremove : ∀ i removed c, P c → P (c.afterRemove (home ++ [i]) removed)) (node : Node) :
    P (s.commitTo home node).1.context := by
  refine s.commitTo_cases home node (fun _ => h) (fun _ => h) fun m ins room _ _ _ hroom => ?_
  have hcontext : P room.context := hroom.of_removeAt (P := (P ·.context)) h fun i => by
    unfold OpenScope.removeAt
    split
    · exact hremove i _ _ h
    · exact h
  unfold OpenScope.noteRecorded
  dsimp only
  split <;> exact hinsert _ _ hcontext

/-- The second half of recording a node, when the one that it replaces is gone. -/
theorem Continues.record (h : s.Sound) (ht : s.Continues t) {home : Path} {m node : Node}
    {ins : Insertion} (hm : s.node.get? home = some m) (hs : m.kind.isScope = true)
    (hn : node.Kept) (hk : node.kind ≠ .description) (hins : m.insertion? node = some ins)
    (he : t.node.insertAt ins.node (home ++ [ins.position]) =
      s.node.modifyAt (fun m => m.withChildren (ins.apply m.children)) home) (k : Kind)
    (name : String) :
    s.Continues ((t.insertAt (home ++ [ins.position]) ins.node).noteRecorded home k name) ∧
      ((t.insertAt (home ++ [ins.position]) ins.node).noteRecorded home k name).node.get?
        (home ++ [ins.position]) = some ins.node := by
  have hkept : (t.node.insertAt ins.node (home ++ [ins.position])).Kept := by
    rw [he]
    refine (h.kept.modifyAt wellKept_isLocal fun m' hm' => ?_).1
    rw [hm] at hm'
    cases hm'
    exact ⟨Kept.insert (h.kept.get? hm) hn hs hk hins, rfl⟩
  have htu := ht.sound.insertAt hkept
  refine ⟨(ht.trans htu).trans (htu.sound.noteRecorded ..), ?_⟩
  rw [node_noteRecorded, show (t.insertAt (home ++ [ins.position]) ins.node).node =
    t.node.insertAt ins.node (home ++ [ins.position]) from rfl, he, get?_append, get?_modifyAt, hm]
  simp only [Option.map_some, Option.bind_some, Node.get?, Node.withChildren,
    getElem?_apply hins]

/-- Recording a node below the scope. It is found where the answer says. -/
theorem Sound.commitTo (h : s.Sound) {home : Path} {node : Node}
    (hhome : ∀ m, s.node.get? home = some m → m.kind.isScope = true) (hn : node.Kept)
    (hk : node.kind ≠ .description) :
    s.Continues (s.commitTo home node).1 ∧
      ∀ path, (s.commitTo home node).2 = some path → ∃ i m, path = home ++ [i] ∧
        (s.commitTo home node).1.node.get? path = some m ∧ m.key = node.key := by
  refine s.commitTo_cases home node (fun _ => ⟨h.note _, nofun⟩) (fun _ => ⟨h.refl, nofun⟩) ?_
  intro m ins room _ hm hins hroom
  obtain ⟨hc, hget⟩ := Continues.record h (hroom.of_removeAt h.refl fun i => h.removeAt _) hm
    (hhome m hm) hn hk hins hroom.insertAt node.kind (node.name.getD "")
  refine ⟨hc, ?_⟩
  rintro _ ⟨⟩
  exact ⟨_, _, rfl, hget, (Insertion.node_eq hins).1⟩

/-- A path of one step leads to a child. -/
theorem get?_singleton (n : Node) (i : Nat) : n.get? [i] = n.children[i]? := by
  simp only [Node.get?]
  cases n.children[i]? with
  | none => rfl
  | some c => rfl

theorem Sound.commit (h : s.Sound) {node : Node} (hn : node.Kept) (hk : node.kind ≠ .description) :
    s.Continues (s.commit node).1 ∧
      ∀ path, (s.commit node).2 = some path → ∃ i m, path = [i] ∧
        (s.commit node).1.node.children[i]? = some m ∧ m.key = node.key := by
  have hhome : ∀ m, s.node.get? [] = some m → m.kind.isScope = true := by
    rintro _ ⟨⟩
    exact h.scope
  obtain ⟨hc, hpath⟩ := h.commitTo hhome hn hk
  refine ⟨hc, ?_⟩
  intro path hp
  obtain ⟨i, m, rfl, hm, hkey⟩ := hpath path hp
  exact ⟨i, m, rfl, (get?_singleton _ i).symm.trans hm, hkey⟩

/-- Recording a node in one that is kept aside leaves the scope alone, apart from a report. -/
theorem scope_commitAside {P : OpenScope → Prop} (hs : P s) (hnote : ∀ e, P (s.note e))
    (home node : Node) : P (s.commitAside home node).1 := by
  unfold OpenScope.commitAside
  dsimp only
  split
  · exact hnote _
  · split
    · exact hs
    · exact hnote _

/-- What is kept aside stays as it is, or has the node among its children. -/
theorem aside_commitAside {Q : Node → Prop} (s : OpenScope) {home node : Node} (hh : Q home)
    (hinsert : ∀ ins, node.isPrivate = false → home.insertion? node = some ins →
      Q (home.withChildren (ins.apply home.children))) :
    Q (s.commitAside home node).2.2 := by
  unfold OpenScope.commitAside
  dsimp only
  split
  · exact hh
  · rename_i hpublic
    split
    · exact hh
    · rename_i ins hins
      exact hinsert ins (by simpa using hpublic) hins

theorem Sound.commitAside (h : s.Sound) {home node : Node} (hs : home.kind.isScope = true)
    (hh : home.Kept) (hn : node.Kept) (hk : node.kind ≠ .description) :
    s.Continues (s.commitAside home node).1 ∧ (s.commitAside home node).2.2.Kept ∧
      (s.commitAside home node).2.2.key = home.key := by
  refine ⟨scope_commitAside h.refl h.note home node, ?_⟩
  exact s.aside_commitAside (Q := fun n => n.Kept ∧ n.key = home.key) ⟨hh, rfl⟩
    fun ins _ hins => ⟨Kept.insert hh hn hs hk hins, rfl⟩

theorem Sound.placeOf (h : s.Sound) {node : Node} (hn : node.Kept) {path : Option Path}
    (hp : ∀ p, path = some p → ∃ i m, p = [i] ∧ s.node.children[i]? = some m ∧ m.key = node.key) :
    ∃ m, (placeOf node path).node? s.node = some m ∧ m.key = node.key ∧ m.Kept := by
  cases path with
  | none => exact ⟨node, rfl, rfl, hn⟩
  | some p =>
    obtain ⟨i, m, rfl, hm, hkey⟩ := hp p rfl
    exact ⟨m, hm, hkey, h.kept.child (List.mem_of_getElem? hm)⟩

theorem sound_of_key {scope : Node} {p : Place} {m node : Node} (hm : p.node? scope = some m)
    (hkey : m.key = node.key) (hs : node.kind.isScope = true) (hk : m.Kept) : p.Sound scope :=
  ⟨m, hm, (congrArg Kind.isScope (kind_eq_of_key hkey)).trans hs, hk⟩

/-- Recording a node if it has a name. Named or not, it can be given further children after. -/
theorem Sound.commitNamed (h : s.Sound) {node : Node} (hn : node.Kept)
    (hk : node.kind ≠ .description) :
    s.Continues (s.commitNamed node).1 ∧
      ∃ m, (OpenScope.placeOf node (s.commitNamed node).2).node? (s.commitNamed node).1.node = some m ∧
        m.key = node.key ∧ m.Kept := by
  unfold OpenScope.commitNamed
  split
  · exact ⟨h.refl, node, rfl, rfl, hn⟩
  · obtain ⟨hc, hpath⟩ := h.commit hn hk
    exact ⟨hc, hc.sound.placeOf hn hpath⟩

/-- Recording a node that takes a comment on its line. -/
theorem Sound.commitClaimed (h : s.Sound) {node : Node} (hn : node.Kept)
    (hk : node.kind ≠ .description) :
    s.Continues ((s.commit node).1.update ({ · with claim := claimOn (s.commit node).2 })) := by
  obtain ⟨hc, hpath⟩ := h.commit hn hk
  refine hc.trans (hc.sound.update (hc.sound.context.withClaim ?_))
  rintro _ ⟨⟩ path hp
  obtain ⟨q, hq, he⟩ := List.mem_map.mp hp
  cases he
  obtain ⟨i, -, rfl, -⟩ := hpath path (Option.mem_toList.mp hq)
  exact List.cons_ne_nil _ _

/-! ## Function headers -/

/-- The scope that a place leads to can be given further children. -/
theorem isScope_at {i : Nat} (hp : (Place.inScope i).Sound s.node) :
    ∀ m, s.node.get? [i] = some m → m.kind.isScope = true := by
  obtain ⟨n, hn, hs, -⟩ := hp
  intro m hm
  simp only [Place.node?] at hn
  simp only [Node.get?, hn, Option.some.injEq] at hm
  exact hm ▸ hs

theorem Sound.commitHeader (h : s.Sound) {head : Header} (hh : head.Sound s.node) :
    s.Continues (s.commitHeader head) := by
  have hk : head.node.kind ≠ .description := by
    rw [hh.function]
    decide
  have hfinish : ∀ (t : OpenScope) (path : Option Path), s.Continues t → path ≠ some [] →
      s.Continues (t.update fun c => (c.settleArgument path).dropHeader.dropRun) := by
    intro t path ht hp
    refine ht.trans (ht.sound.update ?_)
    exact (ht.sound.context.settleArgument hp).dropHeader.of_refs rfl
  have hbelow : ∀ path : Option Path,
      path.map (· ++ [head.node.children.length - 1]) ≠ some [] := by
    intro path he
    obtain ⟨q, -, he⟩ := Option.map_eq_some_iff.mp he
    exact absurd he (by simp)
  unfold OpenScope.commitHeader
  dsimp only
  split
  · exact hfinish _ _ (h.commit hh.kept hk).1 (hbelow _)
  · rename_i i hi
    have hhome := isScope_at (hh.home _ hi)
    exact hfinish _ _ (h.commitTo hhome hh.kept hk).1 (hbelow _)
  · rename_i home hi
    obtain ⟨n, hn, hs, hkept⟩ := hh.home _ hi
    cases hn
    exact hfinish _ _ (h.commitAside hs hkept hh.kept hk).1 (hbelow none)

/-! ## Claims -/

/-- Changing the function whose header is being read. -/
theorem Sound.updateHeader (h : s.Sound) {f : Node → Node}
    (hf : ∀ n, n.Kept → (f n).Kept ∧ (f n).key = n.key) :
    s.Continues (s.update fun c => { c with header := c.header.map fun head =>
      { head with node := f head.node } }) := by
  have hc := h.context
  refine h.update ⟨?_, hc.record, hc.enumeration, hc.typeAlias, hc.claim⟩
  intro head hhead
  obtain ⟨before, hbefore, rfl⟩ := Option.map_eq_some_iff.mp hhead
  have hs := hc.header before hbefore
  obtain ⟨hkept, hkey⟩ := hf before.node hs.kept
  exact ⟨(kind_eq_of_key hkey).trans hs.function, hkept, hs.home⟩

theorem Sound.updateEnumeration (h : s.Sound) {node changed : Node}
    (he : s.context.enumeration = some (.aside node)) (hk : node.Kept → changed.Kept)
    (hkey : changed.key = node.key) :
    s.Continues (s.update ({ · with enumeration := some (.aside changed) })) := by
  have hc := h.context
  refine h.update ⟨hc.header, hc.record, ?_, hc.typeAlias, hc.claim⟩
  rintro _ ⟨⟩
  obtain ⟨n, hn, hs, hkept⟩ := hc.enumeration _ he
  cases hn
  exact sound_of_key rfl hkey hs (hk hkept)

theorem Sound.describeClaim (h : s.Sound) (raw : String) {claim : Claim}
    (hp : ∀ path, claim = .recorded path → path ≠ []) :
    s.Continues (s.describeClaim raw claim) := by
  cases claim with
  | recorded path => exact h.describeAt raw (hp path rfl)
  | argument =>
    exact h.updateHeader (f := fun n => n.modifyAt (·.describe raw) [n.children.length - 1])
      fun n hn => Kept.describeAt hn raw _
  | constant i =>
    simp only [OpenScope.describeClaim]
    split
    · exact h.describeAt raw (List.cons_ne_nil _ _)
    · rename_i node he
      exact h.updateEnumeration he (fun hk => (Kept.describeAt hk raw [i]).1)
        (key_modifyAt (key_describe · raw) node [i])
    · exact h.refl

theorem Sound.withdrawClaim (h : s.Sound) (claim : Claim) :
    s.Continues (s.withdrawClaim claim) := by
  cases claim with
  | recorded path => exact h.removeAt path
  | argument =>
    exact h.updateHeader (f := fun n => n.removeAt [n.children.length - 1])
      fun n hn => Kept.removeAt hn _
  | constant i =>
    simp only [OpenScope.withdrawClaim]
    split
    · exact h.removeAt _
    · rename_i node he
      exact h.updateEnumeration he (fun hk => (Kept.removeAt hk [i]).1) (key_removeAt node [i])
    · exact h.refl

theorem Sound.withdrawFirst (count : Nat) (h : s.Sound) :
    s.Continues (withdrawFirst count s) := by
  induction count generalizing s with
  | zero => exact h.refl
  | succ count ih =>
    unfold OpenScope.withdrawFirst
    split
    · rename_i claim claims hclaim
      have hupdate : s.Continues (s.update ({ · with claim := some claims })) := by
        refine h.update (h.context.withClaim ?_)
        rintro _ ⟨⟩ path hp
        exact h.context.claim _ hclaim path (List.mem_cons_of_mem _ hp)
      have hone := hupdate.sound.withdrawClaim claim
      exact (hupdate.trans hone).trans (ih hone.sound)
    · exact h.refl

theorem Sound.describeClaims (h : s.Sound) (raw : String) (claims : List Claim)
    (hp : ∀ path, .recorded path ∈ claims → path ≠ []) :
    s.Continues (claims.foldl (OpenScope.describeClaim raw) s) := by
  induction claims generalizing s with
  | nil => exact h.refl
  | cons claim claims ih =>
    have hone := h.describeClaim raw fun path he => hp path (he ▸ List.mem_cons_self ..)
    exact hone.trans (ih hone.sound fun path hm => hp path (List.mem_cons_of_mem _ hm))

/-- A comment describes what it is claimed for, or takes it out again. -/
theorem Sound.settleClaims (h : s.Sound) (raw : String) {claims : List Claim}
    (hp : ∀ path, .recorded path ∈ claims → path ≠ []) :
    s.Continues (s.settleClaims raw claims) := by
  unfold OpenScope.settleClaims
  dsimp only
  split
  · have hw := h.withdrawFirst claims.length
    exact hw.trans (hw.sound.update (hw.sound.context.forgetClaim.of_refs rfl))
  · have hd := h.describeClaims raw claims hp
    exact hd.trans (hd.sound.update (hd.sound.context.forgetClaim.of_refs rfl))

theorem Sound.takeComment (h : s.Sound) (text : String) (line : Bool) :
    s.Continues (s.takeComment text line) := by
  unfold OpenScope.takeComment
  dsimp only
  split
  · exact h.refl
  · split
    · rename_i claims hclaims
      exact h.settleClaims text (h.context.claim claims hclaims)
    · split
      · have hd := h.describe text
        split
        · exact ⟨⟨hd.sound.scope, hd.sound.kept, hd.sound.contexts⟩, hd.origin, hd.key, hd.access⟩
        · exact hd
      · split
        · exact h.update_refs rfl
        · exact h.update_refs rfl

/-! ## Declarations -/

theorem sound_recordNamed? {scope : Node} (hk : scope.Kept) {name : String} {p : Place}
    (h : recordNamed? scope name = some p) : p.Sound scope := by
  have hfound : ∀ (kind : Kind) (i : Nat), kind.isScope = true →
      scope.children.findIdx? (isNamed kind (some name)) = some i →
      (Place.inScope i).Sound scope := by
    intro kind i hs hi
    obtain ⟨c, hc, hget, hkind⟩ := exists_of_findIdx?_isNamed hi
    exact ⟨c, hget, hkind ▸ hs, hk.child hc⟩
  unfold recordNamed? at h
  split at h
  · rename_i i hi
    cases h
    exact hfound .classType i rfl hi
  · obtain ⟨i, hi, rfl⟩ := Option.map_eq_some_iff.mp h
    exact hfound .structType i rfl hi

theorem kept_function (attrs : Attributes) (run : Run) (comment : Option String) :
    Kept { kind := .function, attrs, children := (resultOf? run comment).toList } := by
  have hresult : ∀ n, resultOf? run comment = some n → n.kind = .result ∧ n.Kept := by
    intro n hn
    unfold resultOf? at hn
    split at hn
    · dsimp only at hn
      split at hn
      · cases hn
      · cases hn
        refine ⟨by simp, Kept.describe (kept_of_children (wellKept_of_kind rfl rfl) ?_) _⟩
        intro c hc
        rw [List.mem_singleton.mp hc]
        exact Run.kept_toType _
    · cases hn
  refine kept_of_children ⟨nofun, fun _ => ?_⟩ ?_
  · cases hr : resultOf? run comment with
    | none => exact ⟨by simp, by simp, nofun⟩
    | some n =>
      have hkind := (hresult n hr).1
      refine ⟨by simp [isKind, hkind], by simp [isKind, hkind], ?_⟩
      intro c hc
      rw [List.mem_singleton.mp hc]
      exact .inl hkind
  · intro c hc
    exact (hresult c (Option.mem_toList.mp hc)).2

theorem Sound.startFunction (h : s.Sound) (word : String) :
    s.Continues (s.startFunction word) := by
  unfold OpenScope.startFunction
  dsimp only
  split
  · exact h.update_refs rfl
  · refine h.update ⟨?_, h.context.record, h.context.enumeration, h.context.typeAlias,
      h.context.claim⟩
    rintro _ ⟨⟩
    refine ⟨by simp, Kept.describe (kept_function _ _ _) _, ?_⟩
    intro p hp
    dsimp only at hp
    split at hp
    · exact sound_recordNamed? h.kept hp
    · cases hp

theorem Sound.declareVariable (h : s.Sound) (terminator : Char) :
    s.Continues (s.declareVariable terminator) := by
  unfold OpenScope.declareVariable
  split
  · exact h.update_refs rfl
  · rename_i d hd
    have hnode : ((d.toNode .var).withScope s.context.access).Kept :=
      (d.kept_toNode (k := .var) rfl rfl).congr rfl rfl
    have hu := h.update_refs (f := fun c => { c.dropRun.takeComment with
      base := if terminator == ',' then d.type.takeWhile (·.isWord) else [] }) rfl
    refine hu.trans (hu.sound.commitClaimed (hnode.describeIf _) ?_)
    rw [kind_eq_of_key (key_describeIf _ _)]
    exact nofun

theorem Sound.declareAlias (h : s.Sound) (name : String) (type : Run) :
    s.Continues (s.declareAlias name type) := by
  have hnode : Kept { ofName .typeAlias name with children := [type.closeUp.toType] } := by
    refine kept_of_children (wellKept_of_kind rfl rfl) fun c hc => ?_
    rw [List.mem_singleton.mp hc]
    exact Run.kept_toType _
  unfold OpenScope.declareAlias
  have hu := h.update_refs (f := fun c => { c.takeComment with run := [] }) rfl
  refine hu.trans (hu.sound.commitClaimed (hnode.describeIf _) ?_)
  rw [kind_eq_of_key (key_describeIf _ _)]
  exact nofun

theorem Sound.finishAlias (h : s.Sound) : s.Continues s.finishAlias := by
  unfold OpenScope.finishAlias
  dsimp only
  split
  · exact h.declareAlias _ _
  · exact h.refl

/-- A node without a name is given one and recorded. Where it then is, it can be given further
children. -/
theorem Sound.nameAside (h : s.Sound) (name : String) {place : Option Place}
    (hp : ∀ p, place = some p → p.Sound s.node) :
    s.Continues (s.nameAside name place).1 ∧
      ∀ p, (s.nameAside name place).2 = some p → p.Sound (s.nameAside name place).1.node := by
  unfold OpenScope.nameAside
  split
  · rename_i node
    obtain ⟨n, hn, hs, hkept⟩ := hp _ rfl
    cases hn
    split
    · have hnamed : (node.withName name).Kept := hkept.congr rfl rfl
      have hk : (node.withName name).kind ≠ .description := by
        intro he
        rw [kind_withName] at he
        rw [he] at hs
        cases hs
      obtain ⟨hc, hpath⟩ := h.commit hnamed hk
      refine ⟨hc, ?_⟩
      rintro _ ⟨⟩
      obtain ⟨m, hm, hkey, hmk⟩ := hc.sound.placeOf hnamed hpath
      exact sound_of_key hm hkey hs hmk
    · exact ⟨h.refl, hp⟩
  · exact ⟨h.refl, hp⟩

/-- Places that lead to scopes may be noted in the context. -/
theorem Sound.updateRecord (h : s.Sound) {record : Option Place}
    (hp : ∀ p, record = some p → p.Sound s.node) : s.Continues (s.update ({ · with record })) :=
  h.update ⟨h.context.header, hp, h.context.enumeration, h.context.typeAlias, h.context.claim⟩

theorem Sound.noteEnumeration (h : s.Sound) {enumeration : Option Place}
    (hp : ∀ p, enumeration = some p → p.Sound s.node) :
    s.Continues (s.update ({ · with enumeration })) :=
  h.update ⟨h.context.header, h.context.record, hp, h.context.typeAlias, h.context.claim⟩

theorem Sound.endDefinition (h : s.Sound) (aliased : Bool) :
    s.Continues (s.update (·.afterDefinition aliased)) := by
  refine h.update ⟨h.context.header, nofun, nofun, nofun, ?_⟩
  have hplace : ∀ place path, .recorded path ∈ claimOnPlace place → path ≠ [] := by
    intro place path hm
    unfold claimOnPlace at hm
    split at hm
    · cases List.mem_singleton.mp hm
      exact List.cons_ne_nil _ _
    · cases hm
  intro claims hclaims path hpath
  simp only [Context.afterDefinition] at hclaims
  split at hclaims
  · obtain ⟨before, hbefore, rfl⟩ := Option.map_eq_some_iff.mp hclaims
    rw [List.mem_append, List.mem_append] at hpath
    rcases hpath with hpath | hpath | hpath
    · exact h.context.claim before hbefore path hpath
    · exact hplace _ _ hpath
    · exact hplace _ _ hpath
  · cases hclaims

theorem Sound.declareAwaited (h : s.Sound) (name : String) :
    s.Continues (s.declareAwaited name) := by
  unfold OpenScope.declareAwaited
  split
  · rename_i node hnode
    obtain ⟨hk, hkept⟩ := h.context.typeAlias node hnode
    have hkind : ((node.withName name).withChildren
        (s.context.run.closeUp.toType :: node.children)).kind = .typeAlias := hk
    refine h.commitClaimed (kept_of_children (wellKept_of_kind ?_ ?_) ?_) ?_
    · rw [hkind]
      rfl
    · rw [hkind]
      rfl
    · intro c hc
      rcases List.mem_cons.mp hc with rfl | hc
      · exact Run.kept_toType _
      · exact hkept.child hc
    · rw [hkind]
      exact nofun
  · exact h.update h.context.forgetClaim

theorem Sound.declareDefined (h : s.Sound) (name : String) :
    s.Continues (s.declareDefined name) := by
  have hfirst := h.declareAwaited name
  obtain ⟨hrecord, hrplace⟩ := hfirst.sound.nameAside name hfirst.sound.context.record
  have hr := hfirst.trans (hrecord.trans (hrecord.sound.updateRecord hrplace))
  obtain ⟨henum, heplace⟩ := hr.sound.nameAside name hr.sound.context.enumeration
  have he := hr.trans (henum.trans (henum.sound.noteEnumeration heplace))
  exact he.trans (he.sound.endDefinition s.context.typeAlias.isSome)

theorem Sound.endDeclarator (h : s.Sound) (word : String) (terminator : Char) :
    s.Continues (s.endDeclarator word terminator) := by
  unfold OpenScope.endDeclarator
  dsimp only
  split
  · exact h.declareDefined word
  · split
    · exact h.declareAlias _ _
    · have hw := h.update_refs (f := (·.pushWord word)) (Context.refs_pushWord _ word)
      split
      · split
        · exact h.update_refs rfl
        · exact hw.trans (hw.sound.declareVariable terminator)
      · exact hw

/-- Noting which constant a comment on this line describes. -/
theorem Sound.claimConstant (h : s.Sound) (i : Nat) :
    s.Continues (s.update ({ · with claim := some [.constant i] })) := by
  refine h.update (h.context.withClaim ?_)
  rintro _ ⟨⟩ path hp
  cases List.mem_singleton.mp hp

theorem Sound.declareConstant (h : s.Sound) (word : String) :
    s.Continues (s.declareConstant word) := by
  have hnode : ∀ raw?, ((ofName .constant word).describeIf raw?).Kept := fun raw? =>
    Kept.describeIf (kept_of_children (wellKept_of_kind rfl rfl) (by simp [ofName])) raw?
  have hkind : ∀ raw?, ((ofName .constant word).describeIf raw?).kind ≠ .description := by
    intro raw?
    rw [kind_eq_of_key (key_describeIf _ _)]
    exact nofun
  have ht := h.update_refs (f := .takeComment) (Context.refs_takeComment _)
  unfold OpenScope.declareConstant
  dsimp only
  split
  · rename_i e he
    have hhome := isScope_at (ht.sound.context.enumeration _ he)
    obtain ⟨hc, -⟩ := ht.sound.commitTo hhome (hnode s.context.comment) (hkind s.context.comment)
    split
    · rename_i t path hcommit
      rw [hcommit] at hc
      exact (ht.trans hc).trans (hc.sound.claimConstant _)
    · rename_i t hcommit
      rw [hcommit] at hc
      exact ht.trans hc
  · rename_i home he
    obtain ⟨n, hn, hs, hkept⟩ := ht.sound.context.enumeration _ he
    cases hn
    obtain ⟨hc, hhk, hkey⟩ :=
      ht.sound.commitAside hs hkept (hnode s.context.comment) (hkind s.context.comment)
    split
    · rename_i t i home' hcommit
      rw [hcommit] at hc hhk hkey
      have hplace : ∀ p, some (Place.aside home') = some p → p.Sound t.node := by
        rintro _ ⟨⟩
        exact sound_of_key rfl hkey hs hhk
      have hne := hc.sound.noteEnumeration hplace
      exact (ht.trans hc).trans (hne.trans (hne.sound.claimConstant i))
    · rename_i t home' hcommit
      rw [hcommit] at hc
      exact ht.trans hc
  · exact ht

theorem Sound.declarationWord (h : s.Sound) (word : String) (terminator : Char) :
    s.Continues (s.declarationWord word terminator) := by
  unfold OpenScope.declarationWord
  dsimp only
  split
  · exact h.update_refs rfl
  · have hs := h.update_refs (f := .startRun) (Context.refs_startRun _)
    split
    · exact hs.trans (hs.sound.startFunction word)
    · split
      · split
        · exact hs.trans (hs.sound.update_refs rfl)
        · refine hs.trans (hs.sound.update ?_)
          exact (hs.sound.context.of_refs (Context.refs_pushWord _ word)).addArgument
      · split
        · exact hs.trans (hs.sound.endDeclarator word terminator)
        · exact hs.trans (hs.sound.update_refs (Context.refs_pushWord _ word))

theorem Sound.word (h : s.Sound) (word : String) (terminator : Char) :
    s.Continues (s.word word terminator) := by
  unfold OpenScope.word
  dsimp only
  split
  · exact h.declarationWord word terminator
  · split
    · split
      · exact h.declareConstant word
      · exact h.refl
    · exact h.update_refs rfl

theorem Sound.endHeader (h : s.Sound) : s.Continues s.endHeader := by
  unfold OpenScope.endHeader
  split
  · rename_i head hhead
    split
    · exact h.commitHeader (h.context.header head hhead)
    · exact h.update h.context.dropHeader
  · exact h.refl

theorem Sound.endRun (h : s.Sound) : s.Continues s.endRun := by
  unfold OpenScope.endRun
  split
  · exact h.finishAlias
  · split
    · exact h.declareVariable ';'
    · exact h.refl

theorem Sound.semicolon (h : s.Sound) : s.Continues s.semicolon := by
  have hheader := h.endHeader
  have hrun := hheader.trans hheader.sound.endRun
  unfold OpenScope.semicolon
  refine hrun.trans (hrun.sound.update ?_)
  have hc := hrun.sound.context
  dsimp only
  split
  · exact ⟨hc.header, nofun, nofun, nofun, hc.claim⟩
  · exact ⟨hc.header, nofun, hc.enumeration, hc.typeAlias, hc.claim⟩

end OpenScope

end HeaderDocs.Scan
