import HeaderDocs.Proofs.Scan.Overlay

/-!
# Declarations read into two trees

Whatever is declared in a source, the scope of the source stays beside the same scope read into
another tree (`Beside`): the same nodes are recorded, described and taken out in both.

* `Overlays.settleClaims`: what a comment does to the nodes it is claimed for.
* `Overlays.word`, `Overlays.semicolon`: what declarations do.
-/
namespace HeaderDocs.Scan

open HeaderDocs.Node HeaderDocs.Marked

variable {t : Node} {z : List (Bool × Node)} {u : OpenScope}

/-! ## Recording -/

theorem path_commitTo {s : OpenScope} {home path : Path} {node : Node}
    (h : (s.commitTo home node).2 = some path) : ∃ i, path = home ++ [i] := by
  revert h
  refine s.commitTo_cases home node (fun _ => nofun) (fun _ => nofun) fun _ ins _ _ _ _ _ h => ?_
  exact ⟨ins.position, (Option.some.inj h).symm⟩

theorem path_commit {s : OpenScope} {path : Path} {node : Node}
    (h : (s.commit node).2 = some path) : ∃ i, path = [i] :=
  path_commitTo h

/-- Recording a node in a child of the source. -/
theorem Overlays.commitBelow (h : Overlays t z u) (e : Nat) (node : Node) :
    ∃ z', (∀ k, place z' k = place z k) ∧ Overlays t z' (u.commitTo [e] node).1 ∧
      (u.over t z).commitTo [place z e] node =
        ((u.commitTo [e] node).1.over t z', (u.commitTo [e] node).2.map (Path.mapHead (place z))) := by
  unfold OpenScope.commitTo
  dsimp only
  rw [h.toMerged.get? e []]
  split
  · exact ⟨z, fun _ => rfl, h.note _, rfl⟩
  · cases (u.node.get? [e]).bind (·.insertion? node) with
    | none => exact ⟨z, fun _ => rfl, h, rfl⟩
    | some ins =>
      have hrecord : ∀ {z₁ : List (Bool × Node)} {v : OpenScope}, (∀ k, place z₁ k = place z k) →
          Overlays t z₁ v → ∃ z', (∀ k, place z' k = place z k) ∧
            Overlays t z' ((v.insertAt [e, ins.position] ins.node).noteRecorded [e] node.kind
              (node.name.getD "")) ∧
            ((v.over t z₁).insertAt [place z e, ins.position] ins.node).noteRecorded [place z e]
              node.kind (node.name.getD "") =
            ((v.insertAt [e, ins.position] ins.node).noteRecorded [e] node.kind
              (node.name.getD "")).over t z' := by
        intro z₁ v hp₁ hv
        obtain ⟨z', hp', hz', he'⟩ := hv.insertBelow ins.node e ins.position []
        refine ⟨z', fun k => (hp' k).trans (hp₁ k), hz'.note _, ?_⟩
        rw [← hp₁ e]
        exact congrArg (OpenScope.note _) he'
      cases hr : ins.replaced with
      | none =>
        obtain ⟨z', hp', hz', he'⟩ := hrecord (fun _ => rfl) h
        simp only [hr]
        exact ⟨z', hp', hz', Prod.ext he' rfl⟩
      | some i =>
        obtain ⟨z₁, hp₁, hz₁, he₁⟩ := h.removeBelow e i []
        obtain ⟨z', hp', hz', he'⟩ := hrecord hp₁ hz₁
        simp only [hr]
        refine ⟨z', hp', hz', Prod.ext ?_ rfl⟩
        rw [← he₁] at he'
        exact he'

theorem Overlays.commitNamed (h : Overlays t z u) {node : Node} (hs : node.hasScope = false) :
    ∃ z', Overlays t z' (u.commitNamed node).1 ∧ (u.over t z).commitNamed node =
      ((u.commitNamed node).1.over t z', (u.commitNamed node).2.map (Path.mapHead (place z'))) := by
  unfold OpenScope.commitNamed
  split
  · exact ⟨z, h, rfl⟩
  · exact h.commit hs

/-- A node that is kept aside is the same in both scopes. -/
theorem Overlays.commitAside (h : Overlays t z u) (home node : Node) :
    Overlays t z (u.commitAside home node).1 ∧ (u.over t z).commitAside home node =
      ((u.commitAside home node).1.over t z, (u.commitAside home node).2) := by
  unfold OpenScope.commitAside
  dsimp only
  split
  · exact ⟨h.note _, rfl⟩
  · cases home.insertion? node with
    | none => exact ⟨h, rfl⟩
    | some ins => exact ⟨h.note _, rfl⟩

theorem mapHead_append {φ : Nat → Nat} {path : Path} (h : path ≠ []) (more : Path) :
    Path.mapHead φ (path ++ more) = Path.mapHead φ path ++ more := by
  cases path with
  | nil => exact absurd rfl h
  | cons i path => rfl

theorem placeOf_mapHead (φ : Nat → Nat) {path : Option Path} (node : Node)
    (hp : ∀ p, path = some p → ∃ i, p = [i]) :
    OpenScope.placeOf node (path.map (Path.mapHead φ)) =
      (OpenScope.placeOf node path).mapIndex φ := by
  cases path with
  | none => rfl
  | some p =>
    obtain ⟨i, rfl⟩ := hp p rfl
    rfl

theorem claimOn_mapHead (φ : Nat → Nat) (path : Option Path) :
    OpenScope.claimOn (path.map (Path.mapHead φ)) =
      (OpenScope.claimOn path).map (·.map (Claim.mapIndex φ)) := by
  cases path <;> rfl

/-- Recording a node that takes a comment on its line. -/
theorem Overlays.commitClaimed (h : Overlays t z u) {node : Node} (hs : node.hasScope = false) :
    Beside t
      (((u.over t z).commit node).1.update
        ({ · with claim := OpenScope.claimOn ((u.over t z).commit node).2 }))
      ((u.commit node).1.update ({ · with claim := OpenScope.claimOn (u.commit node).2 })) := by
  obtain ⟨z', hz', he⟩ := h.commit hs
  rw [he]
  refine hz'.beside_update ?_ (hz'.context.withClaim _)
  simp only [claimOn_mapHead]
  rfl

/-! ## Function headers -/

theorem Overlays.commitHeader (h : Overlays t z u) {head : Header}
    (hs : head.node.hasScope = false) :
    Beside t ((u.over t z).commitHeader (head.mapIndex (place z))) (u.commitHeader head) := by
  have hfinish : ∀ {z' : List (Bool × Node)} {v : OpenScope} (path : Option Path),
      Overlays t z' v → (∀ p, path = some p → p ≠ []) →
      Beside t
        ((v.over t z').update fun c => ((c.settleArgument
          ((path.map (Path.mapHead (place z'))).map (· ++ [head.node.children.length - 1]))
            ).dropHeader.dropRun))
        (v.update fun c => (c.settleArgument
          (path.map (· ++ [head.node.children.length - 1]))).dropHeader.dropRun) := by
    intro z' v path hv hp
    refine hv.beside_update ?_ (hv.context.settleArgument _).dropHeader.dropRun
    have hpath : (path.map (Path.mapHead (place z'))).map (· ++ [head.node.children.length - 1]) =
        (path.map (· ++ [head.node.children.length - 1])).map (Path.mapHead (place z')) := by
      cases path with
      | none => rfl
      | some p => simp [mapHead_append (hp p rfl)]
    rw [hpath, Context.settleArgument_mapIndex, Context.dropHeader_mapIndex,
      Context.dropRun_mapIndex]
  unfold OpenScope.commitHeader
  cases hh : head.home with
  | none =>
    obtain ⟨z', hz', he⟩ := h.commit hs
    simp only [Header.mapIndex, hh, Option.map_none, he]
    refine hfinish _ hz' fun p hp => ?_
    obtain ⟨i, rfl⟩ := path_commit hp
    exact List.cons_ne_nil _ _
  | some p =>
    cases p with
    | inScope e =>
      obtain ⟨z', hp', hz', he⟩ := h.commitBelow e head.node
      simp only [Header.mapIndex, hh, Option.map_some, Place.mapIndex, he]
      rw [← funext hp']
      refine hfinish _ hz' fun p hp => ?_
      obtain ⟨i, rfl⟩ := path_commitTo hp
      exact List.cons_ne_nil _ _
    | aside home =>
      obtain ⟨hz', he⟩ := h.commitAside home head.node
      simp only [Header.mapIndex, hh, Option.map_some, Place.mapIndex, he]
      exact hfinish none hz' fun p hp => by cases hp

/-! ## Claims -/

/-- Changing the function whose header is being read. -/
theorem Overlays.updateHeader (h : Overlays t z u) {f : Node → Node}
    (hf : ∀ n, (f n).hasScope = n.hasScope) :
    Overlays t z (u.update fun c => { c with header := c.header.map fun head =>
        { head with node := f head.node } }) ∧
      ((u.over t z).update fun c => { c with header := c.header.map fun head =>
        { head with node := f head.node } }) =
      (u.update fun c => { c with header := c.header.map fun head =>
        { head with node := f head.node } }).over t z := by
  refine h.update ?_ ?_
  · simp only [Context.mapIndex, Option.map_map]
    rfl
  · have hc := h.context
    refine ⟨hc.access, hc.run, hc.base, ?_, hc.record, hc.enumeration, hc.typeAlias⟩
    intro head hhead
    obtain ⟨before, hbefore, rfl⟩ := Option.map_eq_some_iff.mp hhead
    exact (hf before.node).trans (hc.header before hbefore)

theorem Overlays.updateEnumeration (h : Overlays t z u) {node : Node}
    (hs : node.hasScope = false) :
    Overlays t z (u.update ({ · with enumeration := some (.aside node) })) ∧
      ((u.over t z).update ({ · with enumeration := some (.aside node) })) =
        (u.update ({ · with enumeration := some (.aside node) })).over t z := by
  have hc := h.context
  refine h.update rfl ⟨hc.access, hc.run, hc.base, hc.header, hc.record, ?_, hc.typeAlias⟩
  rintro _ ⟨⟩
  exact hs

theorem hasScope_describeAt (n : Node) (raw : String) (path : Path) :
    (n.modifyAt (·.describe raw) path).hasScope = n.hasScope := by
  refine hasScope_congr ?_
  cases path with
  | nil => exact scope_describe n raw
  | cons i path => rfl

theorem Overlays.describeClaim (h : Overlays t z u) (raw : String) {claim : Claim}
    (hp : ∀ path, claim = .recorded path → path ≠ []) :
    ∃ z', (∀ k, place z' k = place z k) ∧ Overlays t z' (u.describeClaim raw claim) ∧
      (u.over t z).describeClaim raw (claim.mapIndex (place z)) =
        (u.describeClaim raw claim).over t z' := by
  cases claim with
  | recorded path =>
    cases path with
    | nil => exact absurd rfl (hp [] rfl)
    | cons i rest => exact h.describeAt raw i rest
  | argument =>
    exact ⟨z, fun _ => rfl, h.updateHeader (f := fun n =>
      n.modifyAt (·.describe raw) [n.children.length - 1]) fun n => hasScope_describeAt n raw _⟩
  | constant i =>
    have he : (u.over t z).context.enumeration =
        u.context.enumeration.map (Place.mapIndex (place z)) := rfl
    simp only [Claim.mapIndex, OpenScope.describeClaim, he]
    rcases henum : u.context.enumeration with _ | ⟨e⟩ | ⟨node⟩
    · exact ⟨z, fun _ => rfl, h, rfl⟩
    · exact h.describeAt raw e [i]
    · have hs := (hasScope_describeAt node raw [i]).trans (h.context.enumeration node henum)
      exact ⟨z, fun _ => rfl, h.updateEnumeration hs⟩

theorem Overlays.describeClaims (h : Overlays t z u) (raw : String) {claims : List Claim}
    (hp : ∀ path, .recorded path ∈ claims → path ≠ []) :
    ∃ z', Overlays t z' (claims.foldl (OpenScope.describeClaim raw) u) ∧
      (claims.map (Claim.mapIndex (place z))).foldl (OpenScope.describeClaim raw) (u.over t z) =
        (claims.foldl (OpenScope.describeClaim raw) u).over t z' := by
  induction claims generalizing z u with
  | nil => exact ⟨z, h, rfl⟩
  | cons claim claims ih =>
    obtain ⟨z₁, hp₁, hz₁, he₁⟩ := h.describeClaim raw fun path he => hp path (he ▸ List.mem_cons_self ..)
    rw [List.map_cons, List.foldl_cons, List.foldl_cons, he₁, ← funext hp₁]
    exact ih hz₁ fun path hm => hp path (List.mem_cons_of_mem _ hm)

theorem Overlays.removeAt (h : Overlays t z u) (path : Path) (hp : path ≠ []) :
    ∃ z', Overlays t z' (u.removeAt path) ∧
      (u.over t z).removeAt (Path.mapHead (place z) path) = (u.removeAt path).over t z' := by
  cases path with
  | nil => exact absurd rfl hp
  | cons i rest =>
    cases rest with
    | cons k rest =>
      obtain ⟨z', -, hz', he⟩ := h.removeBelow i k rest
      exact ⟨z', hz', he⟩
    | nil =>
      cases hm : u.node.children[i]? with
      | some m =>
        obtain ⟨hz', he⟩ := h.toMerged.removeChild (t := t) hm
        refine ⟨_, ⟨hz', h.tree, ?_⟩, he⟩
        rw [unmarked_eraseIdx_place, h.old, declared_removeAt]
      | none =>
        have hu : u.node.get? [i] = none := (OpenScope.get?_singleton _ i).trans hm
        have hs : (u.over t z).node.get? [place z i] = none := (h.toMerged.get? i []).trans hu
        refine ⟨z, ?_, ?_⟩ <;> simp only [OpenScope.removeAt, hu, hs, Path.mapHead]
        exact h

theorem Overlays.withdrawClaim (h : Overlays t z u) (claim : Claim)
    (hp : ∀ path, claim = .recorded path → path ≠ []) :
    ∃ z', Overlays t z' (u.withdrawClaim claim) ∧
      (u.over t z).withdrawClaim (claim.mapIndex (place z)) =
        (u.withdrawClaim claim).over t z' := by
  cases claim with
  | recorded path => exact h.removeAt path (hp path rfl)
  | argument =>
    exact ⟨z, h.updateHeader (f := fun n => n.removeAt [n.children.length - 1]) fun n => rfl⟩
  | constant i =>
    have he : (u.over t z).context.enumeration =
        u.context.enumeration.map (Place.mapIndex (place z)) := rfl
    simp only [Claim.mapIndex, OpenScope.withdrawClaim, he]
    rcases henum : u.context.enumeration with _ | ⟨e⟩ | ⟨node⟩
    · exact ⟨z, h, rfl⟩
    · exact h.removeAt [e, i] (List.cons_ne_nil _ _)
    · have hs : (node.removeAt [i]).hasScope = false := h.context.enumeration node henum
      exact ⟨z, h.updateEnumeration hs⟩

theorem Overlays.withdrawFirst (count : Nat) (h : Overlays t z u) (hu : u.Sound) :
    Beside t (OpenScope.withdrawFirst count (u.over t z)) (OpenScope.withdrawFirst count u) := by
  induction count generalizing z u with
  | zero => exact h.beside
  | succ count ih =>
    have hclaim : (u.over t z).context.claim =
        u.context.claim.map (·.map (Claim.mapIndex (place z))) := rfl
    unfold OpenScope.withdrawFirst
    rw [hclaim]
    rcases hc : u.context.claim with _ | _ | ⟨claim, claims⟩
    · exact h.beside
    · exact h.beside
    · obtain ⟨hz₁, he₁⟩ := h.update
        (f := ({ · with claim := some (claims.map (Claim.mapIndex (place z))) }))
        (g := ({ · with claim := some claims })) rfl (h.context.withClaim _)
      have hpaths := hu.context.claim _ hc
      have hu₁ := hu.update (f := ({ · with claim := some claims })) (hu.context.withClaim
        (fun _ he path hp => hpaths path (List.mem_cons_of_mem _ (Option.some.inj he ▸ hp))))
      obtain ⟨z₂, hz₂, he₂⟩ := hz₁.withdrawClaim claim
        fun path he => hpaths path (he ▸ List.mem_cons_self ..)
      simp only [Option.map_some, List.map_cons, he₁, he₂]
      exact ih hz₂ (hu₁.sound.withdrawClaim claim).sound

/-- A comment describes what it is claimed for in both scopes, or takes it out of both. -/
theorem Overlays.settleClaims (h : Overlays t z u) (hu : u.Sound) (raw : String)
    {claims : List Claim} (hp : ∀ path, .recorded path ∈ claims → path ≠ []) :
    Beside t ((u.over t z).settleClaims raw (claims.map (Claim.mapIndex (place z))))
      (u.settleClaims raw claims) := by
  unfold OpenScope.settleClaims
  dsimp only
  split
  · obtain ⟨z', hz', he⟩ := h.withdrawFirst claims.length hu
    rw [List.length_map, he]
    exact hz'.beside_update rfl ((hz'.context.withClaim none).of_refs rfl rfl hz'.context.run
      hz'.context.base)
  · obtain ⟨z', hz', he⟩ := h.describeClaims raw hp
    rw [he]
    exact hz'.beside_update rfl ((hz'.context.withClaim none).of_refs rfl rfl hz'.context.run
      hz'.context.base)

theorem Overlays.takeComment (h : Overlays t z u) (hu : u.Sound) (text : String) (line : Bool) :
    Beside t ((u.over t z).takeComment text line) (u.takeComment text line) := by
  have hc := h.context
  have hclaim : (u.over t z).context.claim =
      u.context.claim.map (·.map (Claim.mapIndex (place z))) := rfl
  have hrecord : ∀ n : Node, n.kind = .root → n.kind.isRecord = false := by
    intro n hn
    rw [hn]
    rfl
  unfold OpenScope.takeComment
  dsimp only
  rw [hclaim]
  split
  · exact h.beside
  · cases hclaims : u.context.claim with
    | some claims => exact h.settleClaims hu text (hu.context.claim claims hclaims)
    | none =>
      simp only [Option.map_none, hrecord _ h.root, hrecord (u.over t z).node h.tree,
        Bool.and_false, Bool.false_and, Bool.false_eq_true, if_false]
      have hcond : (!(u.over t z).context.run.isEmpty && (u.over t z).context.header.isNone &&
          !(u.over t z).context.inEnumeration) =
          (!u.context.run.isEmpty && u.context.header.isNone && !u.context.inEnumeration) := by
        change (!u.context.run.isEmpty && (u.context.header.map _).isNone &&
          !(u.context.mapIndex (place z)).inEnumeration) = _
        rw [Context.inEnumeration_mapIndex, Option.isNone_map]
      rw [hcond]
      split
      · exact h.beside_update rfl (hc.of_refs rfl rfl hc.run hc.base)
      · exact h.beside_update rfl (hc.of_refs rfl rfl hc.run hc.base)

/-! ## Declarations -/

theorem context_over (t : Node) (z : List (Bool × Node)) (u : OpenScope) :
    (u.over t z).context = u.context.mapIndex (place z) := rfl

theorem run_over (t : Node) (z : List (Bool × Node)) (u : OpenScope) :
    (u.over t z).context.run = u.context.run := rfl

theorem Overlays.kind_over (h : Overlays t z u) : (u.over t z).node.kind = u.node.kind :=
  h.tree.trans h.root.symm

theorem Overlays.notRecord (h : Overlays t z u) : u.node.kind.isRecord = false := by
  rw [h.root]
  rfl

theorem Overlays.startFunction (h : Overlays t z u) {word : String}
    (hw : OpenScope.splitQualified word = none) :
    Beside t ((u.over t z).startFunction word) (u.startFunction word) := by
  have hc := h.context
  unfold OpenScope.startFunction
  simp only [hw, run_over, h.kind_over]
  split
  · exact h.beside_update rfl hc.dropRun
  · refine h.beside_update rfl ⟨hc.access, .nil, hc.base, ?_, hc.record, hc.enumeration,
      hc.typeAlias⟩
    rintro _ ⟨⟩
    refine (hasScope_congr (scope_describe _ _)).trans ?_
    simp [hasScope, hc.access]

theorem Overlays.declareVariable (h : Overlays t z u) (terminator : Char) :
    Beside t ((u.over t z).declareVariable terminator) (u.declareVariable terminator) := by
  have hc := h.context
  unfold OpenScope.declareVariable
  rw [run_over]
  cases hd : Declarator.ofRun? u.context.run with
  | none => exact h.beside_update rfl hc.dropRun
  | some d =>
    have hbase : Run.Plain (if terminator == ',' then d.type.takeWhile (·.isWord) else []) := by
      split
      · exact (Declarator.plain_type hc.run hd).sublist (List.takeWhile_sublist _)
      · exact .nil
    obtain ⟨hz, he⟩ := h.update
      (f := fun c => { c.dropRun.takeComment with
        base := if terminator == ',' then d.type.takeWhile (·.isWord) else [] })
      (g := fun c => { c.dropRun.takeComment with
        base := if terminator == ',' then d.type.takeWhile (·.isWord) else [] })
      rfl (hc.of_refs rfl rfl .nil hbase)
    have hs : (((d.toNode .var).withScope u.context.access).describeIf
        u.context.comment).hasScope = false := by
      refine (hasScope_congr (scope_describeIf _ _)).trans ?_
      simp [hasScope, withScope, hc.access]
    have hcommit := hz.commitClaimed hs
    rw [← he] at hcommit
    exact hcommit

theorem Overlays.declareAlias (h : Overlays t z u) (name : String) (type : Run) :
    Beside t ((u.over t z).declareAlias name type) (u.declareAlias name type) := by
  have hc := h.context
  obtain ⟨hz, he⟩ := h.update (f := fun c => { c.takeComment with run := [] })
    (g := fun c => { c.takeComment with run := [] }) rfl (hc.of_refs rfl rfl .nil hc.base)
  have hs : (Node.describeIf { (ofName .typeAlias name) with children := [type.closeUp.toType] }
      u.context.comment).hasScope = false :=
    (hasScope_congr (scope_describeIf _ _)).trans rfl
  have hcommit := hz.commitClaimed hs
  rw [← he] at hcommit
  exact hcommit

theorem Overlays.finishAlias (h : Overlays t z u) :
    Beside t (u.over t z).finishAlias u.finishAlias := by
  unfold OpenScope.finishAlias
  dsimp only
  rw [run_over]
  cases u.context.run[OpenScope.aliasIndex u.context.run]? with
  | none => exact h.beside
  | some name => exact h.declareAlias _ _

/-! ## Declarators after a definition -/

/-- A node without a name is given one and recorded in both scopes. -/
theorem Overlays.nameAside (h : Overlays t z u) (name : String) {p? : Option Place}
    (hp : ∀ n, p? = some (.aside n) → n.hasScope = false) :
    ∃ z', Overlays t z' (u.nameAside name p?).1 ∧
      (u.over t z).nameAside name (p?.map (Place.mapIndex (place z))) =
        ((u.nameAside name p?).1.over t z',
          (u.nameAside name p?).2.map (Place.mapIndex (place z'))) ∧
      ∀ n, (u.nameAside name p?).2 = some (.aside n) → n.hasScope = false := by
  rcases p? with _ | ⟨i⟩ | ⟨node⟩
  · exact ⟨z, h, rfl, nofun⟩
  · exact ⟨z, h, rfl, nofun⟩
  · simp only [OpenScope.nameAside, Option.map_some, Place.mapIndex]
    split
    · have hs : (node.withName name).hasScope = false := hp node rfl
      obtain ⟨z', hz', he⟩ := h.commit hs
      have hplace : OpenScope.placeOf (node.withName name)
          ((u.commit (node.withName name)).2.map (Path.mapHead (place z'))) = _ :=
        placeOf_mapHead _ _ fun p hp => path_commit hp
      refine ⟨z', hz', ?_, ?_⟩
      · rw [he]
        exact Prod.ext rfl (congrArg some hplace)
      · intro n hn
        unfold OpenScope.placeOf at hn
        split at hn
        · cases hn
        · cases hn
          exact hs
    · exact ⟨z, h, rfl, hp⟩

theorem Overlays.declareAwaited (h : Overlays t z u) (name : String) :
    Beside t ((u.over t z).declareAwaited name) (u.declareAwaited name) := by
  have halias : (u.over t z).context.typeAlias = u.context.typeAlias := rfl
  unfold OpenScope.declareAwaited
  rw [halias]
  cases hn : u.context.typeAlias with
  | none => exact h.beside_update rfl (h.context.withClaim none)
  | some node =>
    have hs : ((node.withName name).withChildren
        (u.context.run.closeUp.toType :: node.children)).hasScope = false :=
      h.context.typeAlias node hn
    exact h.commitClaimed hs

theorem Overlays.updateRecord (h : Overlays t z u) (p? : Option Place)
    (hp : ∀ n, p? = some (.aside n) → n.hasScope = false) :
    Overlays t z (u.update ({ · with record := p? })) ∧
      (u.over t z).update ({ · with record := p?.map (Place.mapIndex (place z)) }) =
        (u.update ({ · with record := p? })).over t z := by
  have hc := h.context
  exact h.update (f := ({ · with record := p?.map (Place.mapIndex (place z)) }))
    (g := ({ · with record := p? })) rfl
    ⟨hc.access, hc.run, hc.base, hc.header, hp, hc.enumeration, hc.typeAlias⟩

theorem Overlays.noteEnumeration (h : Overlays t z u) (p? : Option Place)
    (hp : ∀ n, p? = some (.aside n) → n.hasScope = false) :
    Overlays t z (u.update ({ · with enumeration := p? })) ∧
      (u.over t z).update ({ · with enumeration := p?.map (Place.mapIndex (place z)) }) =
        (u.update ({ · with enumeration := p? })).over t z := by
  have hc := h.context
  exact h.update (f := ({ · with enumeration := p?.map (Place.mapIndex (place z)) }))
    (g := ({ · with enumeration := p? })) rfl
    ⟨hc.access, hc.run, hc.base, hc.header, hc.record, hp, hc.typeAlias⟩

theorem claimOnPlace_mapIndex (φ : Nat → Nat) (p? : Option Place) :
    OpenScope.claimOnPlace (p?.map (Place.mapIndex φ)) =
      (OpenScope.claimOnPlace p?).map (Claim.mapIndex φ) := by
  rcases p? with _ | ⟨i⟩ | ⟨node⟩ <;> rfl

theorem Context.afterDefinition_mapIndex (φ : Nat → Nat) (aliased : Bool) (c : Context) :
    (c.mapIndex φ).afterDefinition aliased = (c.afterDefinition aliased).mapIndex φ := by
  cases aliased with
  | false => rfl
  | true =>
    simp only [Context.afterDefinition, Context.mapIndex, claimOnPlace_mapIndex, if_true,
      Option.map_map, ← List.map_append]
    congr 2
    funext claims
    exact List.map_append.symm

theorem Overlays.endDefinition (h : Overlays t z u) (aliased : Bool) :
    Beside t ((u.over t z).update (·.afterDefinition aliased))
      (u.update (·.afterDefinition aliased)) :=
  have hc := h.context
  h.beside_update (Context.afterDefinition_mapIndex _ aliased _)
    ⟨hc.access, .nil, hc.base, hc.header, nofun, nofun, nofun⟩

theorem declareDefined_eq (s : OpenScope) (name : String) :
    s.declareDefined name =
      let first := s.declareAwaited name
      let (named, record) := first.nameAside name first.context.record
      let second := named.update ({ · with record })
      let (named, enumeration) := second.nameAside name second.context.enumeration
      (named.update ({ · with enumeration })).update
        (·.afterDefinition s.context.typeAlias.isSome) := rfl

theorem Overlays.declareDefined (h : Overlays t z u) (name : String) :
    Beside t ((u.over t z).declareDefined name) (u.declareDefined name) := by
  obtain ⟨z₁, hz₁, he₁⟩ := h.declareAwaited name
  obtain ⟨z₂, hz₂, he₂, hp₂⟩ := hz₁.nameAside name hz₁.context.record
  obtain ⟨hz₃, he₃⟩ := hz₂.updateRecord _ hp₂
  obtain ⟨z₄, hz₄, he₄, hp₄⟩ := hz₃.nameAside name hz₃.context.enumeration
  obtain ⟨hz₅, he₅⟩ := hz₄.noteEnumeration _ hp₄
  have hend := hz₅.endDefinition u.context.typeAlias.isSome
  rw [← he₅] at hend
  have hrecord : (OpenScope.over t z₁ (u.declareAwaited name)).nameAside name
      (OpenScope.over t z₁ (u.declareAwaited name)).context.record = _ := he₂
  have henum : ∀ v : OpenScope, (v.over t z₂).context.enumeration =
      v.context.enumeration.map (Place.mapIndex (place z₂)) := fun _ => rfl
  rw [declareDefined_eq, declareDefined_eq]
  dsimp only
  rw [he₁, hrecord]
  dsimp only
  rw [he₃, henum, he₄]
  exact hend

theorem Overlays.endDeclarator (h : Overlays t z u) {word : String} (hw : word ≠ "namespace")
    (terminator : Char) :
    Beside t ((u.over t z).endDeclarator word terminator) (u.endDeclarator word terminator) := by
  have hc := h.context
  have hpush := h.update (f := (·.pushWord word)) (g := (·.pushWord word))
    (Context.pushWord_mapIndex _ _) (hc.pushWord hw)
  have hcond : ((u.over t z).context.typeAlias.isSome || (u.over t z).context.record.isSome) =
      (u.context.typeAlias.isSome || u.context.record.isSome) := by
    change (u.context.typeAlias.isSome || (u.context.record.map _).isSome) = _
    rw [Option.isSome_map]
  have hparens : (u.over t z).context.parens = u.context.parens := rfl
  unfold OpenScope.endDeclarator
  dsimp only
  rw [hcond, run_over, hparens, h.kind_over]
  split
  · exact h.declareDefined word
  · split
    · exact h.declareAlias _ _
    · split
      · split
        · exact h.beside_update rfl hc.dropRun
        · obtain ⟨hz, he⟩ := hpush
          rw [he]
          exact hz.declareVariable terminator
      · exact ⟨z, hpush⟩

/-! ## Words -/

theorem Overlays.declareConstant (h : Overlays t z u) (word : String) :
    Beside t ((u.over t z).declareConstant word) (u.declareConstant word) := by
  obtain ⟨hz, he⟩ := h.update (f := .takeComment) (g := .takeComment)
    (Context.takeComment_mapIndex _) h.context.takeComment
  have henum : ((u.update .takeComment).over t z).context.enumeration =
      (u.update .takeComment).context.enumeration.map (Place.mapIndex (place z)) := rfl
  have hcomment : (u.over t z).context.comment = u.context.comment := rfl
  unfold OpenScope.declareConstant
  dsimp only
  rw [he, henum, hcomment]
  rcases hn : (u.update .takeComment).context.enumeration with _ | ⟨e⟩ | ⟨home⟩
  · exact hz.beside
  · -- the enumeration is a child of the source
    obtain ⟨z', -, hz', he'⟩ :=
      hz.commitBelow e ((ofName .constant word).describeIf u.context.comment)
    simp only [Option.map_some, Place.mapIndex, he']
    rcases hcommit : (u.update .takeComment).commitTo [e]
      ((ofName .constant word).describeIf u.context.comment) with ⟨v, _ | path⟩
    · rw [hcommit] at hz'
      exact hz'.beside
    · rw [hcommit] at hz'
      obtain ⟨i, rfl⟩ := path_commitTo (congrArg Prod.snd hcommit)
      exact hz'.beside_update rfl (hz'.context.withClaim _)
  · -- the enumeration is kept aside
    obtain ⟨hz', he'⟩ := hz.commitAside home ((ofName .constant word).describeIf u.context.comment)
    have hhome : ((u.update .takeComment).commitAside home
        ((ofName .constant word).describeIf u.context.comment)).2.2.hasScope = false := by
      have hs := hz.context.enumeration home hn
      exact OpenScope.aside_commitAside (Q := (·.hasScope = false)) _ hs fun _ _ _ => hs
    simp only [Option.map_some, Place.mapIndex, he']
    rcases hcommit : (u.update .takeComment).commitAside home
      ((ofName .constant word).describeIf u.context.comment) with ⟨v, _ | i, home'⟩
    · rw [hcommit] at hz'
      exact hz'.beside
    · rw [hcommit] at hz' hhome
      have hc := hz'.context
      refine hz'.beside_update rfl
        ⟨hc.access, hc.run, hc.base, hc.header, hc.record, ?_, hc.typeAlias⟩
      rintro _ ⟨⟩
      exact hhome

/-- A word that is neither qualified nor the keyword of a namespace. -/
theorem Overlays.declarationWord (h : Overlays t z u) {word : String} (hw : word ≠ "namespace")
    (hq : OpenScope.splitQualified word = none) (terminator : Char) :
    Beside t ((u.over t z).declarationWord word terminator)
      (u.declarationWord word terminator) := by
  obtain ⟨hz, he⟩ := h.update (f := .startRun) (g := .startRun) (Context.startRun_mapIndex _)
    h.context.startRun
  have hc := hz.context
  have hheader : ((u.update .startRun).over t z).context.header.isNone =
      (u.update .startRun).context.header.isNone := Option.isNone_map
  unfold OpenScope.declarationWord
  dsimp only
  rw [run_over, h.kind_over, h.notRecord]
  simp only [Bool.and_false, Bool.false_and, Bool.false_eq_true, if_false]
  rw [he, run_over, hheader, context_over, Context.inArguments_mapIndex]
  split
  · exact hz.startFunction hq
  · split
    · split
      · exact hz.beside_update rfl hc.dropRun
      · refine hz.beside_update ?_ (hc.pushWord hw).addArgument
        rw [Context.pushWord_mapIndex, Context.addArgument_mapIndex]
    · split
      · exact hz.endDeclarator hw terminator
      · exact hz.beside_update (Context.pushWord_mapIndex _ _) (hc.pushWord hw)

/-- In a block no word declares a member from outside, or opens a namespace. -/
theorem Overlays.wordIn (h : Overlays t z u) {word : String}
    (hw : u.context.braces = 0 → word ≠ "namespace" ∧ OpenScope.splitQualified word = none)
    (terminator : Char) :
    Beside t ((u.over t z).word word terminator) (u.word word terminator) := by
  have hbraces : (u.over t z).context.braces = u.context.braces := rfl
  have hvalue : (u.over t z).context.inValue = u.context.inValue := rfl
  have henum : (u.over t z).context.enumeration.isSome = u.context.enumeration.isSome :=
    Option.isSome_map
  unfold OpenScope.word
  dsimp only
  rw [hbraces, henum, hvalue]
  split
  · rename_i hzero
    obtain ⟨hw, hq⟩ := hw (eq_of_beq hzero)
    exact h.declarationWord hw hq terminator
  · split
    · split
      · exact h.declareConstant word
      · exact h.beside
    · exact h.beside_update rfl h.context.dropRun

theorem Overlays.word (h : Overlays t z u) {word : String} (hw : word ≠ "namespace")
    (hq : OpenScope.splitQualified word = none) (terminator : Char) :
    Beside t ((u.over t z).word word terminator) (u.word word terminator) :=
  h.wordIn (fun _ => ⟨hw, hq⟩) terminator

/-! ## Semicolons -/

theorem Overlays.endHeader (h : Overlays t z u) :
    Beside t (u.over t z).endHeader u.endHeader := by
  have hheader : (u.over t z).context.header =
      u.context.header.map (Header.mapIndex (place z)) := rfl
  unfold OpenScope.endHeader
  rw [hheader, h.kind_over]
  cases hh : u.context.header with
  | none => exact h.beside
  | some head =>
    simp only [Option.map_some]
    rw [show (head.mapIndex (place z)).typed = head.typed from rfl]
    split
    · exact h.commitHeader (h.context.header head hh)
    · exact h.beside_update (Context.dropHeader_mapIndex _) h.context.dropHeader

theorem Overlays.endRun (h : Overlays t z u) : Beside t (u.over t z).endRun u.endRun := by
  have hdeclares : OpenScope.declaresVariable (u.over t z).node.kind (u.over t z).context =
      OpenScope.declaresVariable u.node.kind u.context := by
    rw [h.kind_over]
    rfl
  unfold OpenScope.endRun
  rw [run_over, hdeclares]
  split
  · exact h.finishAlias
  · split
    · exact h.declareVariable ';'
    · exact h.beside

theorem Overlays.semicolon (h : Overlays t z u) :
    Beside t (u.over t z).semicolon u.semicolon := by
  obtain ⟨z₁, hz₁, he₁⟩ := h.endHeader
  obtain ⟨z₂, hz₂, he₂⟩ := hz₁.endRun
  have hc := hz₂.context
  unfold OpenScope.semicolon
  rw [he₁, he₂]
  refine hz₂.beside_update ?_ ?_
  · dsimp only
    rw [show (u.endHeader.endRun.context.mapIndex (place z₂)).dropRun.braces =
      u.endHeader.endRun.context.dropRun.braces from rfl]
    split <;> rfl
  · dsimp only
    split
    · exact ⟨hc.access, .nil, .nil, hc.header, nofun, nofun, nofun⟩
    · exact ⟨hc.access, .nil, .nil, hc.header, nofun, hc.enumeration, hc.typeAlias⟩

end HeaderDocs.Scan
