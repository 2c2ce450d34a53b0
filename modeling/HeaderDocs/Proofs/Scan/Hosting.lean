import HeaderDocs.Proofs.Scan.OverlayScopes

/-!
# Declarations that are recorded elsewhere

What a source declares can be recorded in the root of a tree, or in a node that is no record, after
the children that this node has (its `Host`). Those have no name, so nothing that is declared replaces
one of them or is put between them, and each operation does the same in both places: a child of the
one is found in the other further back, by the number of children of the host.

`Hosted` says so of two scopes, one of which may have more contexts below its own.

* `Hosted.insertAt`, `Hosted.removeAt`, `Hosted.modifyAt`: changes of the tree.
* `Hosted.takeComment`: what comments do.
-/
namespace HeaderDocs.Scan

open HeaderDocs.Node

/-- The node that records the declarations of a source instead of the scope that the source is read
in; none for that scope itself. -/
abbrev Host := Option Node

namespace Host

def lead : Host → List Node
  | none => []
  | some host => host.children

/-- The node that has what a scope has recorded. -/
def hold : Host → Node → Node
  | none, scope => scope
  | some host, scope => host.withChildren (host.children ++ scope.children)

/-- The position of a recorded child. -/
def shift (host : Host) (i : Nat) : Nat := i + host.lead.length

/-- A host can stand for a scope: its children have no names, and neither of the two is a record. -/
def Fits (host : Host) (kind : Kind) : Prop :=
  ∀ node, host = some node →
    (∀ c ∈ node.children, c.name = none) ∧ node.kind.isRecord = false ∧ kind.isRecord = false

variable {host : Host} {kind : Kind}

theorem fits_none (kind : Kind) : Fits none kind := nofun

theorem shift_inj (i j : Nat) : host.shift i = host.shift j ↔ i = j := Nat.add_right_cancel_iff

theorem shift_lt (i j : Nat) : host.shift i < host.shift j ↔ i < j := Nat.add_lt_add_iff_right

theorem Fits.unnamed (h : host.Fits kind) : ∀ c ∈ host.lead, c.name = none := by
  cases host with
  | none => exact nofun
  | some node => exact (h node rfl).1

/-! ### References -/

theorem sameInsert (host : Host) (path : Path) :
    SameInsert host.shift host.shift (path.mapHead host.shift) path := by
  match path with
  | [] => exact fun _ => rfl
  | [i] =>
    refine sameInsert_singleton (fun j => ?_) fun j => ⟨fun _ => ?_, fun _ => rfl⟩
    · exact Nat.add_le_add_iff_right
    · exact Nat.add_right_comm ..
  | i :: k :: rest => exact sameInsert_below shift_inj i k rest

theorem sameRemove (host : Host) (path : Path) :
    SameRemove host.shift host.shift (path.mapHead host.shift) path := by
  match path with
  | [] => exact fun _ => rfl
  | [i] =>
    refine sameRemove_singleton (fun j => shift_inj i j) (fun j => shift_lt i j) fun j =>
      ⟨fun hj => ?_, fun _ => rfl⟩
    simp only [shift]
    omega
  | i :: k :: rest => exact sameRemove_below shift_inj i k rest

/-! ### Nodes -/

theorem children_hold (host : Host) (scope : Node) :
    (host.hold scope).children = host.lead ++ scope.children := by
  cases host <;> rfl

theorem hold_change {f g : List Node → List Node} (scope : Node)
    (h : f (host.lead ++ scope.children) = host.lead ++ g scope.children) :
    (host.hold scope).withChildren (f (host.hold scope).children) =
      host.hold (scope.withChildren (g scope.children)) := by
  rw [children_hold, h]
  cases host <;> rfl

theorem hold_modifyTailIdx (f : List Node → List Node) (i : Nat) (scope : Node) :
    (host.hold scope).withChildren ((host.hold scope).children.modifyTailIdx (host.shift i) f) =
      host.hold (scope.withChildren (scope.children.modifyTailIdx i f)) := by
  refine hold_change (f := (·.modifyTailIdx (host.shift i) f)) (g := (·.modifyTailIdx i f)) scope ?_
  rw [shift, Nat.add_comm, List.modifyTailIdx_add]

theorem getElem?_hold (i : Nat) (scope : Node) :
    (host.hold scope).children[host.shift i]? = scope.children[i]? := by
  rw [children_hold, shift, List.getElem?_append_right (Nat.le_add_left ..), Nat.add_sub_cancel]

theorem get?_hold (host : Host) (path : Path) (h : path ≠ [] ∨ host = none) (scope : Node) :
    (host.hold scope).get? (path.mapHead host.shift) = scope.get? path := by
  cases path with
  | nil =>
    obtain h | rfl := h
    · exact absurd rfl h
    · rfl
  | cons i rest => simp only [Path.mapHead, Node.get?, getElem?_hold]

theorem modifyAt_hold {path : Path} (h : path ≠ [] ∨ host = none) (f : Node → Node) (scope : Node) :
    (host.hold scope).modifyAt f (path.mapHead host.shift) = host.hold (scope.modifyAt f path) := by
  cases path with
  | nil =>
    obtain h | rfl := h
    · exact absurd rfl h
    · rfl
  | cons i rest => exact hold_modifyTailIdx (List.modifyHead fun c => c.modifyAt f rest) i scope

theorem insertAt_hold (new : Node) (path : Path) (scope : Node) :
    (host.hold scope).insertAt new (path.mapHead host.shift) =
      host.hold (scope.insertAt new path) := by
  match path with
  | [] => rfl
  | [i] => exact hold_modifyTailIdx (List.cons new) i scope
  | i :: k :: rest =>
    exact hold_modifyTailIdx (List.modifyHead fun c => c.insertAt new (k :: rest)) i scope

theorem removeAt_hold (host : Host) (path : Path) (scope : Node) :
    (host.hold scope).removeAt (path.mapHead host.shift) = host.hold (scope.removeAt path) := by
  match path with
  | [] => rfl
  | [i] =>
    simp only [Path.mapHead, Node.removeAt, List.eraseIdx_eq_modifyTailIdx]
    exact hold_modifyTailIdx List.tail i scope
  | i :: k :: rest =>
    exact hold_modifyTailIdx (List.modifyHead fun c => c.removeAt (k :: rest)) i scope

/-! ### Names -/

/-- A named child is found among those that were declared. -/
theorem findIdx?_hold (h : host.Fits kind) (k : Kind) (name : String) (scope : Node) :
    (host.hold scope).children.findIdx? (isNamed k (some name)) =
      (scope.children.findIdx? (isNamed k (some name))).map host.shift := by
  have hlead : host.lead.findIdx? (isNamed k (some name)) = none := by
    rw [List.findIdx?_eq_none_iff]
    intro c hc
    simp [isNamed, h.unnamed c hc]
  rw [children_hold, List.findIdx?_append, hlead]
  rfl

theorem findIdx_sortsAfter_hold (h : host.Fits kind) (name : String) (cs : List Node) :
    (host.lead ++ cs).findIdx (sortsAfter name) = host.shift (cs.findIdx (sortsAfter name)) := by
  have hlead : host.lead.findIdx (sortsAfter name) = host.lead.length := by
    rw [List.findIdx_eq_length]
    exact fun c hc => sortsAfter_of_unnamed (h.unnamed c hc)
  rw [List.findIdx_append, hlead, if_neg (Nat.lt_irrefl _)]
  rfl

end Host

/-- What an insertion changes, where children are counted differently. -/
def mapInsertion (φ : Nat → Nat) (ins : Insertion) : Insertion :=
  { ins with replaced := ins.replaced.map φ, position := φ ins.position }

theorem mapInsertion_id (ins : Insertion) : mapInsertion id ins = ins := by
  simp only [mapInsertion, Option.map_id_fun, id]

theorem Host.insertion?_hold {host : Host} {kind : Kind} (h : host.Fits kind) (scope node : Node) :
    (host.hold scope).insertion? node = (scope.insertion? node).map (mapInsertion host.shift) := by
  unfold insertion?
  cases node.name with
  | none => rfl
  | some name =>
    dsimp only
    rw [findIdx?_hold h]
    cases isRecordable name with
    | false => rfl
    | true =>
      cases scope.children.findIdx? (isNamed node.kind (some name)) with
      | none =>
        simp only [Option.map_none, children_hold, findIdx_sortsAfter_hold h, if_true, mapInsertion,
          Option.bind_none, Option.map_some]
      | some i =>
        have hrest : (host.hold scope).children.eraseIdx (host.shift i) =
            host.lead ++ scope.children.eraseIdx i := by
          have hremove := congrArg Node.children (host.removeAt_hold [i] scope)
          rwa [children_hold] at hremove
        simp only [Option.map_some, hrest, findIdx_sortsAfter_hold h, Option.bind_some, getElem?_hold,
          if_true, mapInsertion]

/-! ## Scopes -/

/-- A scope records in its host what another one records in itself. It may have more contexts below
its own. Whether it is still attached does not matter to the scope of a source, which is never put
back. -/
structure Hosted (host : Host) (below : Nat) (s u : OpenScope) : Prop where
  node : s.node = host.hold u.node
  attached : s.origin = .source ∨ s.attached = u.attached
  context : s.context = u.context.mapIndex host.shift
  suspended : ∃ others : List Context, others.length = below ∧
    s.suspended = u.suspended.map (Context.mapIndex host.shift) ++ others
  fits : host.Fits u.node.kind

namespace Hosted

variable {host : Host} {below : Nat} {s u : OpenScope}

theorem update (h : Hosted host below s u) {f g : Context → Context}
    (hf : f (u.context.mapIndex host.shift) = (g u.context).mapIndex host.shift) :
    Hosted host below (s.update f) (u.update g) :=
  ⟨h.node, h.attached, (congrArg f h.context).trans hf, h.suspended, h.fits⟩

theorem mapContexts (h : Hosted host below s u) {f g : Context → Context}
    (hf : ∀ c : Context, f (c.mapIndex host.shift) = (g c).mapIndex host.shift) {m n : Node}
    (hm : m = host.hold n) (hn : n.kind = u.node.kind) :
    Hosted host below { s.mapContexts f with node := m } { u.mapContexts g with node := n } := by
  obtain ⟨others, hlength, hsuspended⟩ := h.suspended
  refine ⟨hm, h.attached, (congrArg f h.context).trans (hf _), ⟨others.map f, ?_, ?_⟩, hn ▸ h.fits⟩
  · rw [List.length_map, hlength]
  · simp only [OpenScope.mapContexts, hsuspended, List.map_append, List.map_map, Function.comp_def, hf]

theorem insertAt (h : Hosted host below s u) (path : Path) (new : Node) :
    Hosted host below (s.insertAt (path.mapHead host.shift) new) (u.insertAt path new) := by
  refine h.mapContexts (Context.mapIndex_afterInsert (host.sameInsert path)) ?_
    (kind_eq_of_key (key_insertAt u.node new path))
  change s.node.insertAt new _ = _
  rw [h.node, Host.insertAt_hold]
  rfl

theorem removeAt (h : Hosted host below s u) (path : Path) (hp : path ≠ [] ∨ host = none) :
    Hosted host below (s.removeAt (path.mapHead host.shift)) (u.removeAt path) := by
  unfold OpenScope.removeAt
  rw [h.node, host.get?_hold path hp]
  cases u.node.get? path with
  | none => exact h
  | some removed =>
    refine h.mapContexts (Context.mapIndex_afterRemove (host.sameRemove path) removed) ?_
      (kind_eq_of_key (key_removeAt u.node path))
    change s.node.removeAt _ = _
    rw [h.node, host.removeAt_hold]
    rfl

theorem modifyAt (h : Hosted host below s u) (f : Node → Node) (path : Path)
    (hp : path ≠ [] ∨ host = none) :
    Hosted host below (s.modifyAt f (path.mapHead host.shift)) (u.modifyAt f path) := by
  refine ⟨?_, h.attached, h.context, h.suspended, ?_⟩
  · change s.node.modifyAt f _ = _
    rw [h.node, Host.modifyAt_hold hp]
    rfl
  · cases path with
    | nil =>
      obtain hp | rfl := hp
      · exact absurd rfl hp
      · exact Host.fits_none _
    | cons i rest => exact h.fits

theorem describe (h : Hosted none below s u) (raw : String) :
    Hosted none below (s.describe raw) (u.describe raw) := by
  have hnode : s.node = u.node := h.node
  have hdescribed : ∀ {t v : OpenScope}, Hosted none below t v →
      Hosted none below { t with node := s.node.describe raw }
        { v with node := u.node.describe raw } := fun ht =>
    ⟨congrArg (·.describe raw) hnode, ht.attached, ht.context, ht.suspended, Host.fits_none _⟩
  unfold OpenScope.describe
  dsimp only
  rw [show s.node.children.findIdx? (isKind .description) =
    u.node.children.findIdx? (isKind .description) by rw [hnode]]
  split
  · exact hdescribed (h.removeAt [_] (.inr rfl))
  · exact hdescribed h

/-! ## Recording -/

theorem note (h : Hosted host below s u) (e e' : Event) :
    Hosted host below (s.note e) (u.note e') :=
  ⟨h.node, h.attached, h.context, h.suspended, h.fits⟩

theorem noteRecorded (h : Hosted host below s u) (home home' : Path) (kind : Kind) (name : String) :
    Hosted host below (s.noteRecorded home kind name) (u.noteRecorded home' kind name) := by
  unfold OpenScope.noteRecorded
  dsimp only
  split <;> split <;> exact ⟨h.node, h.attached, h.context, h.suspended, h.fits⟩

/-- A node is inserted at the same places, further back in the host itself. -/
theorem insertion? (h : Hosted host below s u) (home : Path) (node : Node) :
    ∃ φ : Nat → Nat,
      (s.node.get? (home.mapHead host.shift)).bind (·.insertion? node) =
        ((u.node.get? home).bind (·.insertion? node)).map (mapInsertion φ) ∧
      ∀ i, home.mapHead host.shift ++ [φ i] = (home ++ [i]).mapHead host.shift := by
  rw [h.node]
  cases home with
  | nil => exact ⟨host.shift, Host.insertion?_hold h.fits u.node node, fun i => rfl⟩
  | cons e rest =>
    refine ⟨id, ?_, fun i => rfl⟩
    rw [host.get?_hold _ (.inl (List.cons_ne_nil e rest)), funext mapInsertion_id, Option.map_id']

theorem commitTo (h : Hosted host below s u) (home : Path) (node : Node) :
    Hosted host below (s.commitTo (home.mapHead host.shift) node).1 (u.commitTo home node).1 ∧
      (s.commitTo (home.mapHead host.shift) node).2 =
        (u.commitTo home node).2.map (Path.mapHead host.shift) := by
  obtain ⟨φ, hins, hpath⟩ := h.insertion? home node
  unfold OpenScope.commitTo
  dsimp only
  rw [hins]
  split
  · exact ⟨h.note _ _, rfl⟩
  · cases (u.node.get? home).bind (·.insertion? node) with
    | none => exact ⟨h, rfl⟩
    | some ins =>
      simp only [Option.map_some, mapInsertion, hpath]
      refine ⟨?_, trivial⟩
      cases ins.replaced with
      | none => exact (h.insertAt _ _).noteRecorded _ _ _ _
      | some i =>
        simp only [Option.map_some, hpath]
        have hremoved := h.removeAt (home ++ [i]) (.inl (by simp))
        exact (hremoved.insertAt _ _).noteRecorded _ _ _ _

theorem commit (h : Hosted host below s u) (node : Node) :
    Hosted host below (s.commit node).1 (u.commit node).1 ∧
      (s.commit node).2 = (u.commit node).2.map (Path.mapHead host.shift) :=
  h.commitTo [] node

theorem commitNamed (h : Hosted host below s u) (node : Node) :
    Hosted host below (s.commitNamed node).1 (u.commitNamed node).1 ∧
      OpenScope.placeOf node (s.commitNamed node).2 =
        (OpenScope.placeOf node (u.commitNamed node).2).mapIndex host.shift := by
  unfold OpenScope.commitNamed
  split
  · exact ⟨h, rfl⟩
  · obtain ⟨hcommit, hpath⟩ := h.commit node
    refine ⟨hcommit, ?_⟩
    rw [hpath]
    exact placeOf_mapHead _ _ fun p hp => path_commit hp

/-- A node that is kept aside is the same in both. -/
theorem commitAside (h : Hosted host below s u) (home node : Node) :
    Hosted host below (s.commitAside home node).1 (u.commitAside home node).1 ∧
      (s.commitAside home node).2 = (u.commitAside home node).2 := by
  unfold OpenScope.commitAside
  dsimp only
  split
  · exact ⟨h.note _ _, rfl⟩
  · split
    · exact ⟨h, rfl⟩
    · exact ⟨h.note _ _, rfl⟩

/-- Recording a node that takes a comment on its line. -/
theorem commitClaimed (h : Hosted host below s u) (node : Node) :
    Hosted host below
      ((s.commit node).1.update ({ · with claim := OpenScope.claimOn (s.commit node).2 }))
      ((u.commit node).1.update ({ · with claim := OpenScope.claimOn (u.commit node).2 })) := by
  obtain ⟨hcommit, hpath⟩ := h.commit node
  refine hcommit.update ?_
  simp only [hpath, claimOn_mapHead]
  rfl

theorem commitHeader (h : Hosted host below s u) (head : Header) :
    Hosted host below (s.commitHeader (head.mapIndex host.shift)) (u.commitHeader head) := by
  have hfinish : ∀ {t v : OpenScope} (path : Option Path) {path' : Option Path},
      Hosted host below t v →
      path' = path.map (Path.mapHead host.shift) → (∀ p, path = some p → p ≠ []) →
      Hosted host below
        (t.update fun c => (c.settleArgument
          (path'.map (· ++ [head.node.children.length - 1]))).dropHeader.dropRun)
        (v.update fun c => (c.settleArgument
          (path.map (· ++ [head.node.children.length - 1]))).dropHeader.dropRun) := by
    intro t v path path' ht he hp
    refine ht.update ?_
    have hargument : path'.map (· ++ [head.node.children.length - 1]) =
        (path.map (· ++ [head.node.children.length - 1])).map (Path.mapHead host.shift) := by
      rw [he]
      cases path with
      | none => rfl
      | some p => simp [mapHead_append (hp p rfl)]
    rw [hargument, Context.settleArgument_mapIndex, Context.dropHeader_mapIndex,
      Context.dropRun_mapIndex]
  unfold OpenScope.commitHeader
  cases hh : head.home with
  | none =>
    obtain ⟨hcommit, hpath⟩ := h.commit head.node
    simp only [Header.mapIndex, hh, Option.map_none]
    refine hfinish _ hcommit hpath fun p hp => ?_
    obtain ⟨i, rfl⟩ := path_commit hp
    exact List.cons_ne_nil _ _
  | some place =>
    cases place with
    | inScope e =>
      obtain ⟨hcommit, hpath⟩ := h.commitTo [e] head.node
      simp only [Header.mapIndex, hh, Option.map_some, Place.mapIndex]
      refine hfinish _ hcommit hpath fun p hp => ?_
      obtain ⟨i, rfl⟩ := path_commitTo hp
      exact List.cons_ne_nil _ _
    | aside home =>
      simp only [Header.mapIndex, hh, Option.map_some, Place.mapIndex]
      exact hfinish none (h.commitAside home head.node).1 rfl fun p hp => by cases hp

/-! ## Claims -/

/-- Changing the function whose header is being read. -/
theorem updateHeader (h : Hosted host below s u) (f : Node → Node) :
    Hosted host below
      (s.update fun c => { c with header := c.header.map fun head =>
        { head with node := f head.node } })
      (u.update fun c => { c with header := c.header.map fun head =>
        { head with node := f head.node } }) := by
  refine h.update ?_
  simp only [Context.mapIndex, Option.map_map]
  rfl

theorem enumeration (h : Hosted host below s u) :
    s.context.enumeration = u.context.enumeration.map (Place.mapIndex host.shift) := by
  rw [h.context]
  rfl

theorem describeClaim (h : Hosted host below s u) (raw : String) {claim : Claim}
    (hp : claim ≠ .recorded [] ∨ host = none) :
    Hosted host below (s.describeClaim raw (claim.mapIndex host.shift))
      (u.describeClaim raw claim) := by
  cases claim with
  | recorded path => exact h.modifyAt _ path (hp.imp_left fun hne he => hne (congrArg _ he))
  | argument => exact h.updateHeader fun n => n.modifyAt (·.describe raw) [n.children.length - 1]
  | constant i =>
    simp only [Claim.mapIndex, OpenScope.describeClaim, h.enumeration]
    rcases u.context.enumeration with _ | ⟨e⟩ | ⟨node⟩
    · exact h
    · exact h.modifyAt _ [e, i] (.inl (List.cons_ne_nil _ _))
    · exact h.update rfl

theorem describeClaims (h : Hosted host below s u) (raw : String) {claims : List Claim}
    (hp : (∀ claim ∈ claims, claim ≠ .recorded []) ∨ host = none) :
    Hosted host below
      ((claims.map (Claim.mapIndex host.shift)).foldl (OpenScope.describeClaim raw) s)
      (claims.foldl (OpenScope.describeClaim raw) u) := by
  induction claims generalizing s u with
  | nil => exact h
  | cons claim claims ih =>
    refine ih (h.describeClaim raw (hp.imp_left fun hall => ?_)) (hp.imp_left fun hall => ?_)
    · exact hall claim (List.mem_cons_self ..)
    · exact fun claim hm => hall claim (List.mem_cons_of_mem _ hm)

theorem withdrawClaim (h : Hosted host below s u) (claim : Claim)
    (hp : claim ≠ .recorded [] ∨ host = none) :
    Hosted host below (s.withdrawClaim (claim.mapIndex host.shift)) (u.withdrawClaim claim) := by
  cases claim with
  | recorded path => exact h.removeAt path (hp.imp_left fun hne he => hne (congrArg _ he))
  | argument => exact h.updateHeader fun n => n.removeAt [n.children.length - 1]
  | constant i =>
    simp only [Claim.mapIndex, OpenScope.withdrawClaim, h.enumeration]
    rcases u.context.enumeration with _ | ⟨e⟩ | ⟨node⟩
    · exact h
    · exact h.removeAt [e, i] (.inl (List.cons_ne_nil _ _))
    · exact h.update rfl

theorem claim (h : Hosted host below s u) :
    s.context.claim = u.context.claim.map (·.map (Claim.mapIndex host.shift)) := by
  rw [h.context]
  rfl

theorem withdrawFirst (count : Nat) (h : Hosted host below s u) (hu : u.Sound ∨ host = none) :
    Hosted host below (OpenScope.withdrawFirst count s) (OpenScope.withdrawFirst count u) := by
  induction count generalizing s u with
  | zero => exact h
  | succ count ih =>
    unfold OpenScope.withdrawFirst
    rw [h.claim]
    rcases hc : u.context.claim with _ | _ | ⟨claim, claims⟩
    · exact h
    · exact h
    · have hupdate := h.update (f := ({ · with claim := some (claims.map (Claim.mapIndex host.shift)) }))
        (g := ({ · with claim := some claims })) rfl
      refine ih (hupdate.withdrawClaim claim ?_) (hu.imp_left fun hs => ?_)
      · refine hu.imp_left fun hs he => ?_
        exact hs.context.claim _ hc [] (he ▸ List.mem_cons_self ..) rfl
      · have hs₁ := hs.update (f := ({ · with claim := some claims })) (hs.context.withClaim
          (fun _ he path hp => hs.context.claim _ hc path
            (List.mem_cons_of_mem _ (Option.some.inj he ▸ hp))))
        exact (hs₁.sound.withdrawClaim claim).sound

theorem settleClaims (h : Hosted host below s u) (hu : u.Sound ∨ host = none) (raw : String)
    {claims : List Claim} (hc : u.context.claim = some claims) :
    Hosted host below (s.settleClaims raw (claims.map (Claim.mapIndex host.shift)))
      (u.settleClaims raw claims) := by
  have hfinish : ∀ {t v : OpenScope}, Hosted host below t v → Hosted host below
      (t.update ({ · with claim := none, joinable := false }))
      (v.update ({ · with claim := none, joinable := false })) := fun ht => ht.update rfl
  unfold OpenScope.settleClaims
  dsimp only
  refine hfinish ?_
  split
  · rw [List.length_map]
    exact h.withdrawFirst _ hu
  · refine h.describeClaims raw (hu.imp_left fun hs claim hm he => ?_)
    exact hs.context.claim _ hc [] (he ▸ hm) rfl

/-! ## Comments -/

theorem isRecord (h : Hosted host below s u) :
    s.node.kind.isRecord = u.node.kind.isRecord ∧
      (u.node.kind.isRecord = true → host = none) := by
  cases host with
  | none =>
    rw [h.node]
    exact ⟨rfl, fun _ => rfl⟩
  | some node =>
    obtain ⟨-, hnode, hu⟩ := h.fits node rfl
    have hs : s.node.kind.isRecord = false := by
      rw [h.node]
      exact hnode
    exact ⟨hs.trans hu.symm, fun he => absurd (hu.symm.trans he) Bool.false_ne_true⟩

theorem takeComment (h : Hosted host below s u) (hu : u.Sound ∨ host = none) (text : String)
    (line : Bool) : Hosted host below (s.takeComment text line) (u.takeComment text line) := by
  obtain ⟨hkind, hnone⟩ := h.isRecord
  -- only a record, which is the same node in both, looks for a description of its own
  have hself : (s.context.braces == 0 && s.node.kind.isRecord && s.node.descriptionText.isEmpty) =
      (u.context.braces == 0 && u.node.kind.isRecord && u.node.descriptionText.isEmpty) := by
    rw [h.context, hkind]
    cases hr : u.node.kind.isRecord with
    | false => simp only [Bool.and_false, Bool.false_and]
    | true =>
      cases hnone hr
      rw [h.node]
      rfl
  unfold OpenScope.takeComment
  dsimp only
  rw [h.claim, hself]
  split
  · exact h
  · cases hc : u.context.claim with
    | some claims => exact h.settleClaims hu text hc
    | none =>
      simp only [Option.map_none]
      split
      · rename_i hself
        simp only [Bool.and_eq_true] at hself
        cases hnone hself.1.2
        have hd := h.describe text
        split
        · exact ⟨hd.node, .inr rfl, hd.context, hd.suspended, hd.fits⟩
        · exact hd
      · rw [h.context]
        have hrun : (!(u.context.mapIndex host.shift).run.isEmpty &&
            (u.context.mapIndex host.shift).header.isNone &&
            !(u.context.mapIndex host.shift).inEnumeration) =
            (!u.context.run.isEmpty && u.context.header.isNone && !u.context.inEnumeration) := by
          rw [Context.inEnumeration_mapIndex, show (u.context.mapIndex host.shift).header.isNone =
            u.context.header.isNone from Option.isNone_map]
          rfl
        rw [hrun]
        split
        · exact h.update rfl
        · exact h.update rfl

end Hosted

end HeaderDocs.Scan
