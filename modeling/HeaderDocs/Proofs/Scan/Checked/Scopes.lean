import HeaderDocs.Proofs.Scan.Checked.Contexts
import HeaderDocs.Proofs.Scan.Scopes

/-!
# Nothing is missing in a scope

`OpenScope.Valid` says that the contexts of a scope rely on what is there. In such a scope every
operation finds what it uses, so that its checked form does the same without a fault, and leaves the
scope valid: `OpenScope.Completes`.

* `Valid.commitTo`: recording a node, and where it is found then.
* `Valid.takeComment`, `Valid.word`, `Valid.semicolon`: what comments and declarations do.
-/
namespace HeaderDocs.Scan

open HeaderDocs.Node

/-! ## What is asked for -/

namespace Checked

/-- An operation that finds what it uses hands its result on. -/
theorem bind_eq {α β : Type} {x : Attempt α} {a : α} (h : x = .ok a) (f : α → Attempt β) :
    x >>= f = f a := by
  rw [h]
  rfl

theorem pushWord_eq {run : Run} (h : run.Legible) (word : String) :
    pushWord word run = .ok (run.pushWord word) := by
  unfold pushWord
  split
  · rfl
  · rename_i hrun
    have hne : run ≠ [] := by simpa using hrun
    obtain ⟨c, hc⟩ : ∃ c, (run.getLast hne).text.toList.head? = some c := by
      rw [← Option.isSome_iff_exists, List.isSome_head?]
      simpa using h _ (List.getLast_mem hne)
    rw [lastFragment, List.getLast?_eq_some_getLast hne]
    change (firstCharacter _ >>= _) = _
    rw [firstCharacter, hc]
    rfl

theorem firstFragment_cons (f : Fragment) (run : Run) : firstFragment (f :: run) = .ok f := rfl

theorem lastFragment_eq {run : Run} (h : run ≠ []) : lastFragment run = .ok (run.getLast h) := by
  rw [lastFragment, List.getLast?_eq_some_getLast h]
  rfl

theorem closeUp_eq {run : Run} (h : run ≠ []) : closeUp run = .ok run.closeUp := by
  obtain ⟨f, fs, rfl⟩ := List.exists_cons_of_ne_nil h
  rfl

theorem isFunctionPointer_eq {run : Run} (h : run ≠ []) :
    isFunctionPointer run = .ok run.isFunctionPointer := by
  rw [isFunctionPointer, lastFragment_eq h]
  rfl

theorem describe_eq (raw : String) (n : Node) : describe raw n = .ok (n.describe raw) := by
  unfold describe
  split
  · rename_i i hi
    obtain ⟨hlt, -, -⟩ := List.findIdx?_eq_some_iff_getElem.mp hi
    rw [nodeAt, Node.get?, List.getElem?_eq_getElem hlt]
    rfl
  · rfl

theorem describeIf_eq (raw? : Option String) (n : Node) :
    describeIf raw? n = .ok (n.describeIf raw?) := by
  cases raw? with
  | none => rfl
  | some raw => exact describe_eq raw n

theorem applyInsertion_eq {scope node : Node} {ins : Insertion}
    (h : scope.insertion? node = some ins) :
    applyInsertion ins scope.children = .ok (ins.apply scope.children) := by
  have hle := Insertion.position_le h
  rw [Insertion.apply_eq]
  unfold applyInsertion
  unfold Insertion.rest at hle ⊢
  cases hreplaced : ins.replaced with
  | none =>
    rw [hreplaced] at hle
    change (if ins.position ≤ scope.children.length then _ else _) = _
    rw [if_pos hle]
    rfl
  | some i =>
    rw [hreplaced] at hle
    dsimp only
    rw [List.getElem?_eq_getElem (Insertion.lt_of_replaced h hreplaced)]
    change (if ins.position ≤ (scope.children.eraseIdx i).length then _ else _) = _
    rw [if_pos hle]
    rfl

/-- The words of the type of a new variable are those of its declarator. -/
theorem sharedWords_eq (d : Declarator) :
    sharedWords (d.toNode .var) = .ok (d.type.takeWhile (·.isWord)) := by
  have htype : (d.toNode .var).child? .typeExpr = some d.type.toType := rfl
  have hwords :
      d.type.toType.children.map (fun w => (⟨w.content, w.spaced⟩ : Fragment)) = d.type := by
    simp [Run.toType, Function.comp_def, Fragment.toNode, Node.word]
  rw [sharedWords, htype]
  exact congrArg (fun run : Run => Except.ok (run.takeWhile (·.isWord))) hwords

end Checked

namespace OpenScope

/-! ## Valid scopes -/

/-- The contexts of a scope find what they rely on, claims apart. Those that are suspended claim
nothing. -/
structure Placed (s : OpenScope) : Prop where
  context : s.context.Placed s.node
  suspended : ∀ c ∈ s.suspended, c.Placed s.node ∧ c.claims = []

structure Valid (s : OpenScope) : Prop extends s.Placed where
  claims : s.context.ClaimsFound s.node

/-- An operation that finds what it uses: it has the given result, which is valid and the same
scope. -/
structure Completes (s : OpenScope) (x : Attempt OpenScope) (t : OpenScope) : Prop where
  eq : x = .ok t
  valid : t.Valid
  origin : t.origin = s.origin

variable {s t u : OpenScope} {x : Attempt OpenScope}

theorem Valid.current (h : s.Valid) : s.context.Valid s.node := ⟨h.context, h.claims⟩

theorem Completes.bind (h : s.Completes x t) {f : OpenScope → Attempt OpenScope}
    (hf : t.Valid → t.Completes (f t) u) : s.Completes (x >>= f) u := by
  have h' := hf h.valid
  refine ⟨?_, h'.valid, h'.origin.trans h.origin⟩
  rw [h.eq]
  exact h'.eq

theorem Completes.after {α : Type} {y : Attempt α} {a : α} (h : y = .ok a)
    {f : α → Attempt OpenScope} (hf : s.Completes (f a) t) : s.Completes (y >>= f) t :=
  ⟨(Checked.bind_eq h f).trans hf.eq, hf.valid, hf.origin⟩

/-- What starts in another scope for the same node. -/
theorem Completes.of_origin (h : t.Completes x u) (he : t.origin = s.origin) : s.Completes x u :=
  ⟨h.eq, h.valid, h.origin.trans he⟩

theorem Valid.refl (h : s.Valid) : s.Completes (.ok s) s := ⟨rfl, h, rfl⟩

/-- A scope whose context claims nothing is valid. -/
theorem Placed.valid (h : s.Placed) (hclaims : s.context.claims = []) : s.Valid :=
  ⟨h, Context.claimsFound_nil hclaims⟩

theorem Placed.update (h : s.Placed) {f : Context → Context} (hf : (f s.context).Placed s.node) :
    (s.update f).Placed :=
  ⟨hf, h.suspended⟩

theorem Valid.update (h : s.Valid) {f : Context → Context} (hf : (f s.context).Valid s.node) :
    (s.update f).Valid :=
  ⟨h.toPlaced.update hf.toPlaced, hf.toClaimsFound⟩

theorem Valid.updated (h : s.Valid) {f : Context → Context} (hf : (f s.context).Valid s.node) :
    s.Completes (.ok (s.update f)) (s.update f) :=
  ⟨rfl, h.update hf, rfl⟩

/-- After an update the context may claim nothing any more. -/
theorem Placed.forgetClaim (h : s.Placed) {f : Context → Context}
    (hf : (f s.context).Placed s.node) (hclaim : (f s.context).claim = none) :
    (s.update f).Valid :=
  (h.update hf).valid (congrArg (Option.getD · []) hclaim)

theorem Placed.noteRecorded (h : s.Placed) (home : Path) (kind : Kind) (name : String) :
    (s.noteRecorded home kind name).Placed := by
  unfold OpenScope.noteRecorded
  dsimp only
  split <;> exact ⟨h.context, h.suspended⟩

theorem Valid.noteRecorded (h : s.Valid) (home : Path) (kind : Kind) (name : String) :
    (s.noteRecorded home kind name).Valid := by
  refine ⟨h.toPlaced.noteRecorded home kind name, ?_⟩
  unfold OpenScope.noteRecorded
  dsimp only
  split <;> exact h.claims

/-! ## Changes of the node -/

theorem Placed.withNode (h : s.Placed) {node : Node}
    (hle : s.node.children.length ≤ node.children.length) : Placed { s with node } :=
  ⟨h.context.mono hle, fun c hc => ⟨(h.suspended c hc).1.mono hle, (h.suspended c hc).2⟩⟩

theorem Placed.insertAt (h : s.Placed) (path : Path) (new : Node) :
    (s.insertAt path new).Placed := by
  refine ⟨h.context.afterInsert, fun c hc => ?_⟩
  obtain ⟨d, hd, rfl⟩ := List.mem_map.mp hc
  obtain ⟨hplaced, hclaims⟩ := h.suspended d hd
  refine ⟨hplaced.afterInsert, ?_⟩
  rw [Context.claims_afterInsert, hclaims]
  rfl

theorem removeAt_of_get? {path : Path} {removed : Node} (hr : s.node.get? path = some removed) :
    s.removeAt path =
      { s.mapContexts (.afterRemove path removed) with node := s.node.removeAt path } := by
  unfold OpenScope.removeAt
  rw [hr]
  rfl

theorem Placed.removeAt (h : s.Placed) (path : Path) : (s.removeAt path).Placed := by
  cases hr : s.node.get? path with
  | none =>
    unfold OpenScope.removeAt
    rw [hr]
    exact h
  | some removed =>
    rw [removeAt_of_get? hr]
    refine ⟨h.context.afterRemove hr, fun c hc => ?_⟩
    obtain ⟨d, hd, rfl⟩ := List.mem_map.mp hc
    obtain ⟨hplaced, hclaims⟩ := h.suspended d hd
    refine ⟨hplaced.afterRemove hr, ?_⟩
    rw [Context.claims_afterRemove, hclaims]
    rfl

/-! ## Recording -/

/-- Recording a node finds what it uses. The node is found where the answer says. -/
structure Recording (s : OpenScope) (home : Path) (node : Node)
    (x : Attempt (OpenScope × Option Path)) (r : OpenScope × Option Path) : Prop where
  eq : x = .ok r
  valid : r.1.Valid
  origin : r.1.origin = s.origin
  found : ∀ path, r.2 = some path → ∃ i m, path = home ++ [i] ∧ r.1.node.get? path = some m ∧
    m.children = node.children

/-- Putting a node in when the one that it replaces is gone. -/
theorem recording_insertAt {home : Path} {owner node : Node} {ins : Insertion} {rest : List Node}
    (hins : owner.insertion? node = some ins) (hrest : rest = ins.rest owner.children)
    (howner : t.node.get? home = some (owner.withChildren rest))
    (hnode : t.node.insertAt ins.node (home ++ [ins.position]) =
      s.node.modifyAt (fun m => m.withChildren (ins.apply m.children)) home)
    (hs : s.node.get? home = some owner) (horigin : t.origin = s.origin)
    (hvalid : (t.insertAt (home ++ [ins.position]) ins.node).Valid) (kind : Kind) (name : String) :
    Recording s home node
      (Checked.insertAt home ins.position ins.node t >>= fun u =>
        .ok (u.noteRecorded home kind name, some (home ++ [ins.position])))
      ((t.insertAt (home ++ [ins.position]) ins.node).noteRecorded home kind name,
        some (home ++ [ins.position])) := by
  have hle : ins.position ≤ (owner.withChildren rest).children.length :=
    hrest ▸ Insertion.position_le hins
  refine ⟨?_, hvalid.noteRecorded home kind name, ?_, ?_⟩
  · rw [Checked.insertAt, Checked.nodeAt, howner]
    change ((if _ ≤ _ then _ else _) >>= _) = _
    rw [if_pos hle]
    rfl
  · refine Eq.trans ?_ horigin
    unfold OpenScope.noteRecorded
    dsimp only
    split <;> rfl
  · rintro _ ⟨⟩
    refine ⟨ins.position, ins.node, rfl, ?_, (Insertion.node_eq hins).2⟩
    rw [node_noteRecorded, show (t.insertAt (home ++ [ins.position]) ins.node).node =
      t.node.insertAt ins.node (home ++ [ins.position]) from rfl, hnode, get?_append,
      get?_modifyAt, hs]
    simp only [Option.map_some, Option.bind_some, Node.get?, Node.withChildren,
      getElem?_apply hins]

theorem Valid.commitTo (h : s.Valid) {home : Path} {owner : Node}
    (howner : s.node.get? home = some owner) (node : Node) :
    Recording s home node (Checked.commitTo home node s) (s.commitTo home node) := by
  unfold Checked.commitTo OpenScope.commitTo Checked.nodeAt
  rw [howner]
  change Recording s home node (if node.isPrivate then _ else _) _
  split
  · exact ⟨rfl, ⟨⟨h.context, h.suspended⟩, h.claims⟩, rfl, nofun⟩
  · dsimp only [Option.bind_some]
    cases hins : owner.insertion? node with
    | none => exact ⟨rfl, h, rfl, nofun⟩
    | some ins =>
      dsimp only
      cases hreplaced : ins.replaced with
      | none =>
        have hrest : owner.children = ins.rest owner.children := by
          simp [Insertion.rest, hreplaced]
        exact recording_insertAt hins hrest (by rw [howner, withChildren_self])
          (insertAt_of_replaced_none hreplaced s.node home) howner rfl
          ⟨h.toPlaced.insertAt _ _, h.claims.afterInsert⟩ _ _
      | some i =>
        have hlt := Insertion.lt_of_replaced hins hreplaced
        obtain ⟨removed, hr⟩ : ∃ removed, s.node.get? (home ++ [i]) = some removed := by
          refine ⟨owner.children[i], ?_⟩
          rw [get?_append, howner]
          simp [Node.get?, List.getElem?_eq_getElem hlt]
        have hremove : Checked.removeAt (home ++ [i]) s = .ok (s.removeAt (home ++ [i])) := by
          rw [Checked.removeAt, Checked.nodeAt, hr]
          rfl
        have hnode : (s.removeAt (home ++ [i])).node = s.node.removeAt (home ++ [i]) :=
          node_removeAt s _
        have hclaims : ((s.removeAt (home ++ [i])).insertAt (home ++ [ins.position])
            ins.node).context.ClaimsFound
            ((s.removeAt (home ++ [i])).insertAt (home ++ [ins.position]) ins.node).node := by
          rw [removeAt_of_get? hr]
          exact h.claims.replace howner hins hreplaced hr
        have hrest : owner.children.eraseIdx i = ins.rest owner.children := by
          simp [Insertion.rest, hreplaced]
        dsimp only
        rw [hremove]
        refine recording_insertAt (t := s.removeAt (home ++ [i])) hins hrest ?_ ?_ howner ?_
          ⟨(h.toPlaced.removeAt _).insertAt _ _, hclaims⟩ _ _
        · rw [hnode, removeAt_concat, get?_modifyAt, howner]
          rfl
        · rw [hnode, insertAt_removeAt hreplaced]
        · rw [removeAt_of_get? hr]
          rfl

theorem Valid.commit (h : s.Valid) (node : Node) :
    Recording s [] node (Checked.commit node s) (s.commit node) :=
  h.commitTo rfl node

theorem Valid.commitNamed (h : s.Valid) (node : Node) :
    Recording s [] node (Checked.commitNamed node s) (s.commitNamed node) := by
  unfold Checked.commitNamed OpenScope.commitNamed
  split
  · exact ⟨rfl, h, rfl, nofun⟩
  · exact h.commit node

theorem Recording.bind {home : Path} {node : Node} {y : Attempt (OpenScope × Option Path)}
    {r : OpenScope × Option Path} (h : Recording s home node y r)
    {f : OpenScope × Option Path → Attempt OpenScope} (hf : r.1.Completes (f r) u) :
    s.Completes (y >>= f) u := by
  refine ⟨?_, hf.valid, hf.origin.trans h.origin⟩
  rw [h.eq]
  exact hf.eq

/-- Recording a node leaves the function alone whose header is being read, and the open braces. -/
theorem header_commitTo (s : OpenScope) (home : Path) (node : Node) :
    (s.commitTo home node).1.context.header.map (·.node) = s.context.header.map (·.node) ∧
      (s.commitTo home node).1.context.braces = s.context.braces := by
  refine commitTo_context
    (P := fun c => c.header.map (·.node) = s.context.header.map (·.node) ∧
      c.braces = s.context.braces) ⟨rfl, rfl⟩ ?_ ?_ node
  · rintro i c ⟨hc, hbraces⟩
    refine ⟨hc ▸ ?_, hbraces⟩
    simp [Context.afterInsert, Function.comp_def]
  · rintro i removed c ⟨hc, hbraces⟩
    refine ⟨hc ▸ ?_, hbraces⟩
    simp [Context.afterRemove, Function.comp_def]

/-- Recording a node in a child of the scope moves no child. -/
theorem enumeration_commitTo (s : OpenScope) (k : Nat) (rest : Path) (node : Node) :
    (s.commitTo (k :: rest) node).1.context.enumeration = s.context.enumeration := by
  refine commitTo_context (P := fun c => c.enumeration = s.context.enumeration) rfl ?_ ?_ node
  · intro i c hc
    have hbelow : Place.afterInsert (k :: rest ++ [i]) = id :=
      funext (Place.afterInsert_below k (by simp))
    change c.enumeration.map (Place.afterInsert (k :: rest ++ [i])) = _
    rw [hbelow, Option.map_id, hc]
    rfl
  · intro i removed c hc
    have hbelow : Place.afterRemove (k :: rest ++ [i]) removed = id :=
      funext (Place.afterRemove_below k (by simp) removed)
    change c.enumeration.map (Place.afterRemove (k :: rest ++ [i]) removed) = _
    rw [hbelow, Option.map_id, hc]
    rfl

/-- Recording a node in the scope leaves claims on its children on its children. -/
theorem onChild_commit (h : ∀ claim ∈ s.context.claims, claim.OnChild) (node : Node) :
    ∀ claim ∈ (s.commit node).1.context.claims, claim.OnChild := by
  refine commitTo_context (P := fun c => ∀ claim ∈ c.claims, claim.OnChild) h ?_ ?_ node
  · intro i c hc
    rw [Context.claims_afterInsert]
    exact List.forall_mem_map.mpr fun claim hclaim => (hc claim hclaim).afterInsert _
  · intro i removed c hc
    rw [Context.claims_afterRemove]
    intro claim hclaim
    obtain ⟨before, hbefore, ha⟩ := List.mem_filterMap.mp hclaim
    exact (hc before hbefore).afterRemove? ha

theorem claims_commit (h : s.context.claims = []) (node : Node) :
    (s.commit node).1.context.claims = [] := by
  refine commitTo_context (P := fun c => c.claims = []) h ?_ ?_ node
  · intro i c hc
    rw [Context.claims_afterInsert, hc, List.map_nil]
  · intro i removed c hc
    rw [Context.claims_afterRemove, hc, List.filterMap_nil]

theorem Recording.isSome_get? {home : Path} {node : Node} {y : Attempt (OpenScope × Option Path)}
    {r : OpenScope × Option Path} (h : Recording s home node y r) (path : Path)
    (hpath : r.2 = some path) : (r.1.node.get? path).isSome = true := by
  obtain ⟨i, m, -, hm, -⟩ := h.found path hpath
  exact Option.isSome_iff_exists.mpr ⟨m, hm⟩

theorem Recording.found_placeOf {node : Node} {y : Attempt (OpenScope × Option Path)}
    {r : OpenScope × Option Path} (h : Recording s [] node y r) :
    (placeOf node r.2).Found r.1.node := by
  cases hr : r.2 with
  | none => rfl
  | some path =>
    obtain ⟨i, m, rfl, hm, -⟩ := h.found path hr
    exact Option.isSome_iff_exists.mpr ⟨m, (get?_singleton _ i).symm.trans hm⟩

theorem Valid.commitClaimed (h : s.Valid) (node : Node) :
    s.Completes (Checked.commitClaimed node s)
      ((s.commit node).1.update ({ · with claim := claimOn (s.commit node).2 })) := by
  have hr := h.commit node
  exact hr.bind ⟨rfl, hr.valid.update (hr.valid.context.claimOn hr.isSome_get?), rfl⟩

theorem commitAside_eq (s : OpenScope) (home node : Node) :
    Checked.commitAside home node s = .ok (s.commitAside home node) := by
  unfold Checked.commitAside OpenScope.commitAside
  dsimp only
  split
  · rfl
  · cases hins : home.insertion? node with
    | none => rfl
    | some ins =>
      dsimp only
      rw [Checked.applyInsertion_eq hins]
      rfl

/-- Recording a node aside changes the scope only by what there is to report. -/
theorem Valid.commitAside (h : s.Valid) (home node : Node) :
    (s.commitAside home node).1.Valid ∧ (s.commitAside home node).1.origin = s.origin ∧
      (s.commitAside home node).1.context = s.context ∧
      ∀ i, (s.commitAside home node).2.1 = some i →
        i < (s.commitAside home node).2.2.children.length := by
  have hnote : ∀ event, (s.note event).Valid := fun event =>
    ⟨⟨h.context, h.suspended⟩, h.claims⟩
  unfold OpenScope.commitAside
  dsimp only
  split
  · exact ⟨hnote _, rfl, rfl, nofun⟩
  · split
    · exact ⟨h, rfl, rfl, nofun⟩
    · rename_i ins hins
      refine ⟨hnote _, rfl, rfl, ?_⟩
      rintro _ ⟨⟩
      exact (List.getElem?_eq_some_iff.mp (getElem?_apply hins)).1

/-! ## Function headers -/

/-- Where a function has been recorded, its last argument is found. -/
theorem Recording.settleHeader {home : Path} {head : Header}
    (h : Recording s home head.node (Checked.commitTo home head.node s)
      (s.commitTo home head.node)) (hhead : s.context.header = some head) :
    ((s.commitTo home head.node).1.update fun c =>
      (c.settleArgument ((s.commitTo home head.node).2.map
        (· ++ [head.node.children.length - 1]))).dropHeader.dropRun).Valid := by
  refine h.valid.update (h.valid.current.settleArgument ?_).dropHeader.dropRun
  intro hargument path hpath
  obtain ⟨place, hplace, rfl⟩ := Option.map_eq_some_iff.mp hpath
  obtain ⟨i, m, -, hm, hchildren⟩ := h.found place hplace
  have hlast : head.node.children ≠ [] := by
    have hfound := h.valid.claims.found _ hargument
    have hheader := (header_commitTo s home head.node).1
    rw [hhead] at hheader
    obtain ⟨head', hhead', hnode⟩ := Option.map_eq_some_iff.mp hheader
    simpa [Context.claimed?, hhead', hnode] using hfound
  have hlt : head.node.children.length - 1 < m.children.length := by
    have := List.length_pos_iff.mpr hlast
    rw [hchildren]
    omega
  rw [get?_append, hm]
  simp [Node.get?, List.getElem?_eq_getElem hlt]

theorem Valid.commitHeader (h : s.Valid) {head : Header} (hhead : s.context.header = some head) :
    s.Completes (Checked.commitHeader head s) (s.commitHeader head) := by
  have hhome := h.context.home head hhead
  unfold Checked.commitHeader OpenScope.commitHeader
  cases hh : head.home with
  | none =>
    have hr := h.commit head.node
    have hsettled := hr.settleHeader hhead
    dsimp only
    unfold OpenScope.commit at hr ⊢
    generalize s.commitTo [] head.node = r at hr hsettled ⊢
    exact hr.bind ⟨rfl, hsettled, rfl⟩
  | some place =>
    cases place with
    | inScope i =>
      obtain ⟨owner, howner⟩ := Option.isSome_iff_exists.mp (hhome _ hh)
      have hr := h.commitTo ((get?_singleton _ i).trans howner) head.node
      have hsettled := hr.settleHeader hhead
      dsimp only
      generalize s.commitTo [i] head.node = r at hr hsettled ⊢
      exact hr.bind ⟨rfl, hsettled, rfl⟩
    | aside home =>
      obtain ⟨hvalid, horigin, -⟩ := h.commitAside home head.node
      dsimp only
      rw [commitAside_eq]
      generalize s.commitAside home head.node = r at hvalid horigin
      have hsettled : (Context.settleArgument none r.1.context).Valid r.1.node :=
        hvalid.current.settleArgument fun _ => nofun
      exact ⟨rfl, hvalid.update hsettled.dropHeader.dropRun, horigin⟩

/-! ## Claims -/

theorem length_le_describe (n : Node) (raw : String) :
    n.children.length ≤ (n.describe raw).children.length := by
  rw [children_describe, List.length_append, List.length_singleton, List.length_eraseP]
  split <;> omega

theorem length_le_describeAt (n : Node) (raw : String) (path : Path) :
    n.children.length ≤ (n.modifyAt (·.describe raw) path).children.length := by
  cases path with
  | nil => exact length_le_describe n raw
  | cons i path => simp [Node.modifyAt]

theorem Placed.describeAt (h : s.Placed) (raw : String) (path : Path) :
    (s.modifyAt (·.describe raw) path).Placed :=
  h.withNode (length_le_describeAt s.node raw path)

/-- Changing the function whose header is being read. -/
theorem Placed.updateHeader (h : s.Placed) (f : Node → Node) :
    (s.update fun c => { c with header := c.header.map fun head =>
      { head with node := f head.node } }).Placed := by
  have hc := h.context
  refine h.update ⟨hc.run, hc.base, ?_, hc.record, hc.enumeration⟩
  intro head hhead
  obtain ⟨before, hbefore, rfl⟩ := Option.map_eq_some_iff.mp hhead
  exact hc.home before hbefore

theorem Placed.updateEnumeration (h : s.Placed) (node : Node) :
    (s.update ({ · with enumeration := some (.aside node) })).Placed := by
  have hc := h.context
  refine h.update ⟨hc.run, hc.base, hc.home, hc.record, ?_⟩
  rintro _ ⟨⟩
  exact Place.found_aside node

theorem Placed.describeClaim (h : s.Placed) (raw : String) (claim : Claim) :
    (s.describeClaim raw claim).Placed ∧ (s.describeClaim raw claim).origin = s.origin := by
  cases claim with
  | recorded path => exact ⟨h.describeAt raw path, rfl⟩
  | argument =>
    exact ⟨h.updateHeader fun n => n.modifyAt (·.describe raw) [n.children.length - 1], rfl⟩
  | constant i =>
    simp only [OpenScope.describeClaim]
    split
    · exact ⟨h.describeAt raw _, rfl⟩
    · exact ⟨h.updateEnumeration _, rfl⟩
    · exact ⟨h, rfl⟩

theorem Placed.describeClaims (h : s.Placed) (raw : String) (claims : List Claim) :
    (claims.foldl (OpenScope.describeClaim raw) s).Placed ∧
      (claims.foldl (OpenScope.describeClaim raw) s).origin = s.origin := by
  induction claims generalizing s with
  | nil => exact ⟨h, rfl⟩
  | cons claim claims ih =>
    obtain ⟨hplaced, horigin⟩ := h.describeClaim raw claim
    obtain ⟨hall, he⟩ := ih hplaced
    exact ⟨hall, he.trans horigin⟩

theorem describeClaim_eq {claim : Claim} (raw : String)
    (h : (s.context.claimed? s.node claim).isSome = true) :
    Checked.describeClaim raw s claim = .ok (s.describeClaim raw claim) := by
  obtain ⟨node, hnode⟩ := Option.isSome_iff_exists.mp h
  unfold Checked.describeClaim
  rw [hnode]
  change (Checked.describe raw node >>= _) = _
  rw [Checked.describe_eq]
  rfl

theorem describeClaims_eq (raw : String) (claims : List Claim)
    (hapart : claims.length ≤ 1 ∨ ∀ claim ∈ claims, claim.OnChild)
    (hfound : ∀ claim ∈ claims, (s.context.claimed? s.node claim).isSome = true) :
    Checked.describeClaims raw claims s = .ok (claims.foldl (OpenScope.describeClaim raw) s) := by
  induction claims generalizing s with
  | nil => rfl
  | cons claim claims ih =>
    obtain ⟨hclaim, hclaims⟩ := List.forall_mem_cons.mp hfound
    rw [Checked.describeClaims, describeClaim_eq raw hclaim]
    rcases hapart with hone | hall
    · obtain rfl : claims = [] := List.eq_nil_of_length_eq_zero (by simpa using hone)
      rfl
    · obtain ⟨⟨i, rfl⟩, hrest⟩ := List.forall_mem_cons.mp hall
      refine ih (.inr hrest) fun other hother => ?_
      obtain ⟨j, rfl⟩ := hrest other hother
      have hj := hclaims _ hother
      simpa [Context.claimed?, OpenScope.describeClaim, OpenScope.modifyAt, Node.modifyAt,
        get?_singleton] using hj

theorem Placed.withdrawClaim (h : s.Placed) (claim : Claim) :
    (s.withdrawClaim claim).Placed ∧ (s.withdrawClaim claim).origin = s.origin ∧
      (s.context.claims = [] → (s.withdrawClaim claim).context.claims = []) := by
  have hremove : ∀ path, (s.removeAt path).Placed ∧ (s.removeAt path).origin = s.origin ∧
      (s.context.claims = [] → (s.removeAt path).context.claims = []) := by
    intro path
    refine ⟨h.removeAt path, ?_⟩
    unfold OpenScope.removeAt
    split
    · refine ⟨rfl, fun hclaims => (Context.claims_afterRemove path _ s.context).trans ?_⟩
      rw [hclaims]
      rfl
    · exact ⟨rfl, id⟩
  cases claim with
  | recorded path => exact hremove path
  | argument => exact ⟨h.updateHeader fun n => n.removeAt [n.children.length - 1], rfl, id⟩
  | constant i =>
    simp only [OpenScope.withdrawClaim]
    split
    · exact hremove _
    · exact ⟨h.updateEnumeration _, rfl, id⟩
    · exact ⟨h, rfl, id⟩

/-- Taking a node out loses no other claimed one, if they are all children of the scope. -/
theorem Valid.withdrawClaim (h : s.Valid) {claim : Claim}
    (hfound : (s.context.claimed? s.node claim).isSome = true)
    (hapart : s.context.claims = [] ∨ claim.OnChild) :
    s.Completes (Checked.withdrawClaim s claim) (s.withdrawClaim claim) := by
  obtain ⟨removed, hr⟩ := Option.isSome_iff_exists.mp hfound
  obtain ⟨hplaced, horigin, hnil⟩ := h.toPlaced.withdrawClaim claim
  refine ⟨?_, ?_, horigin⟩
  · unfold Checked.withdrawClaim
    rw [hr]
    rfl
  · rcases hapart with hclaims | ⟨i, rfl⟩
    · exact hplaced.valid (hnil hclaims)
    · refine ⟨hplaced, ?_⟩
      rw [show s.withdrawClaim (.recorded [i]) = s.removeAt [i] from rfl, removeAt_of_get? hr]
      exact h.claims.afterRemove hr (.inl ⟨i, rfl⟩)

/-- The first claim is withdrawn; the others are on nodes beside it. -/
theorem Valid.withdrawHead (h : s.Valid) {claim : Claim} {claims : List Claim}
    (hclaim : s.context.claim = some (claim :: claims)) :
    s.Completes (Checked.withdrawClaim (s.update ({ · with claim := some claims })) claim)
      ((s.update ({ · with claim := some claims })).withdrawClaim claim) := by
  have hc := h.context
  have hclaims : s.context.claims = claim :: claims := by simp [Context.claims, hclaim]
  have hclaimed : ∀ other, Context.claimed? s.node { s.context with claim := some claims } other =
      s.context.claimed? s.node other := fun other => by cases other <;> rfl
  have hapart := h.claims.apart
  have hfound := h.claims.found
  rw [hclaims] at hapart hfound
  obtain ⟨hhead, hrest⟩ := List.forall_mem_cons.mp hfound
  have hupdate : (s.update ({ · with claim := some claims })).Valid := by
    refine ⟨h.toPlaced.update (hc.congr hc.run hc.base rfl), ⟨?_, fun i hi => ?_⟩, ?_⟩
    · exact hapart.imp (Nat.le_trans (Nat.le_succ _)) fun hall => (List.forall_mem_cons.mp hall).2
    · exact h.claims.braces i (hclaims ▸ List.mem_cons_of_mem _ hi)
    · exact fun other hother => hclaimed other ▸ hrest other hother
  have hbeside : claims = [] ∨ claim.OnChild :=
    hapart.imp (fun hone => by simpa using hone) fun hall => (List.forall_mem_cons.mp hall).1
  have hw := hupdate.withdrawClaim ((hclaimed claim).symm ▸ hhead) hbeside
  exact ⟨hw.eq, hw.valid, hw.origin⟩

theorem Valid.withdrawFirst (count : Nat) (h : s.Valid) :
    s.Completes (Checked.withdrawFirst count s) (OpenScope.withdrawFirst count s) := by
  induction count generalizing s with
  | zero => exact h.refl
  | succ count ih =>
    unfold Checked.withdrawFirst OpenScope.withdrawFirst
    cases hclaim : s.context.claim with
    | none => exact h.refl
    | some claims =>
      cases claims with
      | nil => exact h.refl
      | cons claim claims => exact (h.withdrawHead hclaim).bind fun hw => ih hw

/-- A comment finds every node that it is claimed for. -/
theorem Valid.settleClaims (h : s.Valid) (raw : String) {claims : List Claim}
    (hclaim : s.context.claim = some claims) :
    s.Completes (Checked.settleClaims raw claims s) (s.settleClaims raw claims) := by
  have hforget : ∀ t : OpenScope, t.Placed → t.origin = s.origin →
      s.Completes (.ok (t.update ({ · with claim := none, joinable := false })))
        (t.update ({ · with claim := none, joinable := false })) := fun t ht he =>
    ⟨rfl, ht.forgetClaim (ht.context.congr ht.context.run ht.context.base rfl) rfl, he⟩
  have hclaims : s.context.claims = claims := by simp [Context.claims, hclaim]
  unfold Checked.settleClaims OpenScope.settleClaims
  split
  · have hw := h.withdrawFirst claims.length
    rw [hw.eq]
    exact hforget _ hw.valid.toPlaced hw.origin
  · obtain ⟨hplaced, horigin⟩ := h.toPlaced.describeClaims raw claims
    rw [describeClaims_eq raw claims (hclaims ▸ h.claims.apart) (hclaims ▸ h.claims.found)]
    exact hforget _ hplaced horigin

/-! ## Comments -/

/-- Describing the scope itself, whose old description is found. -/
theorem Valid.describeScope (h : s.Valid) (raw : String) (hclaims : s.context.claims = []) :
    s.Completes (Checked.describeScope raw s) (s.describe raw) := by
  have hlength := length_le_describe s.node raw
  have hdescribed : (s.describe raw).Placed ∧ (s.describe raw).context.claims = [] ∧
      (s.describe raw).origin = s.origin := by
    unfold OpenScope.describe
    dsimp only
    split
    · rename_i i _
      obtain ⟨hplaced, horigin, hnil⟩ := h.toPlaced.withdrawClaim (.recorded [i])
      refine ⟨hplaced.withNode (Nat.le_trans ?_ hlength), hnil hclaims, horigin⟩
      change (s.removeAt [i]).node.children.length ≤ _
      rw [node_removeAt]
      exact List.length_eraseIdx_le ..
    · exact ⟨h.toPlaced.withNode hlength, hclaims, rfl⟩
  refine ⟨?_, hdescribed.1.valid hdescribed.2.1, hdescribed.2.2⟩
  unfold Checked.describeScope
  rw [Checked.describe_eq]
  rfl

theorem Valid.takeComment (h : s.Valid) (text : String) (line : Bool) :
    s.Completes (Checked.takeComment text line s) (s.takeComment text line) := by
  have hc := h.current
  unfold Checked.takeComment
  cases htext : text.isEmpty with
  | true =>
    simp only [OpenScope.takeComment, htext, if_true]
    exact h.refl
  | false =>
    simp only [OpenScope.takeComment, htext, Bool.false_eq_true, if_false]
    cases hclaim : s.context.claim with
    | some claims => exact h.settleClaims text hclaim
    | none =>
      dsimp only
      split
      · have hd := h.describeScope text (by simp [Context.claims, hclaim])
        refine hd.bind fun ht => ?_
        split
        · exact ⟨rfl, ⟨⟨ht.context, ht.suspended⟩, ht.claims⟩, rfl⟩
        · exact ht.refl
      · split
        · exact h.updated (hc.congr hc.run hc.base rfl)
        · exact h.updated (hc.congr hc.run hc.base rfl)

end OpenScope

end HeaderDocs.Scan
