import HeaderDocs.Proofs.Scan.Arrangement
import HeaderDocs.Proofs.Scan.Commented

/-!
# Comments that describe what is declared

In a scope every description is what is left of comments, or empty where a declaration without a
comment has given it (`OpenScope.Described`); and the claims are on no piece of text
(`OpenScope.Commented`).

* `Commented.takeComment`: what comments do.
* `Commented.word`, `Commented.semicolon`: what declarations do.
-/
namespace HeaderDocs.Scan

open HeaderDocs.Node

variable {Q : String → Prop}

namespace OpenScope

/-- What the node of a scope holds, and what its contexts hold on to. -/
structure Described (Q : String → Prop) (s : OpenScope) : Prop where
  node : s.node.Everywhere (Node.Commented Q)
  contexts : ∀ c ∈ s.context :: s.suspended, c.Described Q

/-- Contexts that are suspended claim nothing. -/
structure Commented (Q : String → Prop) (s : OpenScope) : Prop extends s.Described Q where
  claims : ∀ claim ∈ s.context.claims, claim.Spares s.node
  suspended : ∀ c ∈ s.suspended, c.claims = []

variable {s t : OpenScope}

theorem Described.context (h : s.Described Q) : s.context.Described Q :=
  h.contexts _ (List.mem_cons_self ..)

theorem Commented.current (h : s.Commented Q) : s.context.Commented Q s.node :=
  ⟨h.context, h.claims⟩

theorem Described.update (h : s.Described Q) {f : Context → Context}
    (hf : (f s.context).Described Q) : (s.update f).Described Q := by
  refine ⟨h.node, fun c hc => ?_⟩
  rcases List.mem_cons.mp hc with rfl | hc
  · exact hf
  · exact h.contexts c (List.mem_cons_of_mem _ hc)

theorem Commented.update (h : s.Commented Q) {f : Context → Context}
    (hf : (f s.context).Commented Q s.node) : (s.update f).Commented Q :=
  ⟨h.toDescribed.update hf.toDescribed, hf.claims, h.suspended⟩

theorem Commented.update_passes (h : s.Commented Q) {f : Context → Context}
    (hf : s.context.Passes (f s.context)) : (s.update f).Commented Q :=
  h.update (h.current.of_passes hf)

theorem Commented.note (h : s.Commented Q) (e : Event) : (s.note e).Commented Q :=
  ⟨⟨h.node, h.contexts⟩, h.claims, h.suspended⟩

theorem Commented.noteRecorded (h : s.Commented Q) (home : Path) (kind : Kind) (name : String) :
    (s.noteRecorded home kind name).Commented Q := by
  unfold OpenScope.noteRecorded
  dsimp only
  split
  · exact ⟨⟨h.node, h.contexts⟩, h.claims, h.suspended⟩
  · exact h.note _

/-! ## Changes of the node -/

theorem Commented.insertAt (h : s.Commented Q) {path : Path} {new : Node}
    (hn : (s.node.insertAt new path).Everywhere (Node.Commented Q)) :
    (s.insertAt path new).Commented Q := by
  refine ⟨⟨hn, fun c hc => ?_⟩, h.current.afterInsert.claims, fun c hc => ?_⟩
  · have hc : c ∈ (s.context :: s.suspended).map (.afterInsert path) := hc
    obtain ⟨d, hd, rfl⟩ := List.mem_map.mp hc
    exact (h.contexts d hd).afterInsert path
  · obtain ⟨d, hd, rfl⟩ := List.mem_map.mp hc
    rw [Context.claims_afterInsert, h.suspended d hd]
    rfl

theorem Commented.removeAt (h : s.Commented Q) {path : Path}
    (hn : (s.node.removeAt path).Everywhere (Node.Commented Q)) :
    (s.removeAt path).Commented Q := by
  unfold OpenScope.removeAt
  split
  · rename_i removed hr
    have hremoved := h.node.get? hr
    refine ⟨⟨hn, fun c hc => ?_⟩, (h.current.afterRemove hremoved).claims, fun c hc => ?_⟩
    · have hc : c ∈ (s.context :: s.suspended).map (.afterRemove path removed) := hc
      obtain ⟨d, hd, rfl⟩ := List.mem_map.mp hc
      exact (h.contexts d hd).afterRemove path hremoved
    · obtain ⟨d, hd, rfl⟩ := List.mem_map.mp hc
      rw [Context.claims_afterRemove, h.suspended d hd]
      rfl
  · exact h

/-- Taking out a child of a node that is no description. -/
theorem Commented.removeBelow (h : s.Commented Q) (home : Path) {i : Nat}
    (hp : ∀ m, s.node.get? home = some m → m.kind ≠ .description) :
    (s.removeAt (home ++ [i])).Commented Q :=
  h.removeAt (everywhere_commented_removeAt h.node home fun m hm hk => absurd hk (hp m hm))

theorem Commented.describe (h : s.Commented Q) (hs : s.Sound) (hclaims : s.context.claims = [])
    {raw : String} (hraw : Q raw) : (s.describe raw).Commented Q := by
  have hnode : (s.node.describe raw).Everywhere (Node.Commented Q) :=
    everywhere_commented_describe h.node (explained_of_comment hraw)
  have hself : s.node.kind ≠ .description := fun hk => by
    have hscope := hs.scope
    rw [hk] at hscope
    cases hscope
  unfold OpenScope.describe
  dsimp only
  split
  · rename_i i _
    have hr : (s.removeAt [i]).Commented Q := h.removeBelow [] fun m hm => by
      cases hm
      exact hself
    refine ⟨⟨hnode, hr.contexts⟩, ?_, hr.suspended⟩
    have hnone : (s.removeAt [i]).context.claims = [] := by
      unfold OpenScope.removeAt
      split
      · exact (Context.claims_afterRemove _ _ s.context).trans (congrArg _ hclaims)
      · exact hclaims
    intro claim hclaim
    rw [hnone] at hclaim
    cases hclaim
  · refine ⟨⟨hnode, h.contexts⟩, ?_, h.suspended⟩
    intro claim hclaim
    rw [hclaims] at hclaim
    cases hclaim

/-! ## Recording -/

/-- Nodes that are recorded are neither descriptions nor pieces of text. -/
def Recordable (node : Node) : Prop := node.kind ≠ .description ∧ node.kind.isText = false

theorem recordable_of_isScope {node : Node} (h : node.kind.isScope = true) : Recordable node := by
  refine ⟨State.ne_description_of_isScope h, ?_⟩
  revert h
  cases node.kind <;> first | exact fun _ => rfl | exact nofun

theorem recordable_of_kind {n : Node} (kind : Kind) (h : n.kind = kind)
    (hk : kind ≠ .description ∧ kind.isText = false) : Recordable n := by
  subst h
  exact hk

theorem Commented.commitTo (h : s.Commented Q) {home : Path} {node : Node}
    (hhome : ∀ m, s.node.get? home = some m → m.kind.isScope = true)
    (hn : node.Everywhere (Node.Commented Q)) (hk : Recordable node) :
    (s.commitTo home node).1.Commented Q := by
  refine s.commitTo_cases home node (fun _ => h.note _) (fun _ => h) ?_
  intro m ins room _ hm hins hroom
  have hself := fun m hm => State.ne_description_of_isScope (hhome m hm)
  have hremoved : room.Commented Q := hroom.of_removeAt h fun i => h.removeBelow home hself
  have hinsert : (s.node.modifyAt (fun m => m.withChildren (ins.apply m.children)) home).Everywhere
      (Node.Commented Q) := by
    refine (everywhere_commented_modifyAt h.node fun m' hm' => ?_).1
    cases hm.symm.trans hm'
    exact ⟨everywhere_commented_insert (h.node.get? hm) hn hk.1 hins, rfl, rfl, rfl,
      fun hd => absurd hd (hself m hm)⟩
  refine Commented.noteRecorded (hremoved.insertAt ?_) _ _ _
  rw [hroom.insertAt]
  exact hinsert

theorem Commented.commit (h : s.Commented Q) (hs : s.Sound) {node : Node}
    (hn : node.Everywhere (Node.Commented Q)) (hk : Recordable node) :
    (s.commit node).1.Commented Q := by
  refine h.commitTo (fun m (hm : s.node.get? [] = some m) => ?_) hn hk
  cases hm
  exact hs.scope

theorem Commented.commitNamed (h : s.Commented Q) (hs : s.Sound) {node : Node}
    (hn : node.Everywhere (Node.Commented Q)) (hk : Recordable node) :
    (s.commitNamed node).1.Commented Q := by
  unfold OpenScope.commitNamed
  split
  · exact h
  · exact h.commit hs hn hk

theorem Commented.commitClaimed (h : s.Commented Q) (hs : s.Sound) {node : Node}
    (hn : node.Everywhere (Node.Commented Q)) (hkept : node.Kept) (hk : Recordable node) :
    Commented Q ((s.commit node).1.update ({ · with claim := claimOn (s.commit node).2 })) := by
  have hc := h.commit hs hn hk
  obtain ⟨-, hpath⟩ := hs.commit hkept hk.1
  refine hc.update (hc.current.withClaim fun claim hclaim => ?_)
  obtain ⟨path, hp, rfl⟩ := List.mem_map.mp hclaim
  obtain ⟨i, m, rfl, hm, hkey⟩ := hpath path (Option.mem_toList.mp hp)
  refine Claim.spares_of_get? ((get?_singleton _ i).trans hm) ?_
  rw [kind_eq_of_key hkey]
  exact hk.2

theorem Commented.commitAside (h : s.Commented Q) {home node : Node}
    (hh : home.Everywhere (Node.Commented Q)) (hn : node.Everywhere (Node.Commented Q))
    (hk : Recordable node) :
    (s.commitAside home node).1.Commented Q ∧
      (s.commitAside home node).2.2.Everywhere (Node.Commented Q) :=
  ⟨scope_commitAside h h.note home node,
    s.aside_commitAside hh fun _ _ hins => everywhere_commented_insert hh hn hk.1 hins⟩

/-- The parts of a recorded function are no pieces of text. -/
theorem spares_part {scope function : Node} (hscope : scope.Kept) {path : Path}
    (hf : scope.get? path = some function) (hk : function.kind = .function) (i : Nat) :
    Claim.Spares scope (.recorded (path ++ [i])) := by
  rintro _ ⟨⟩ part hpart
  rw [get?_append, hf, Option.bind_some, get?_singleton] at hpart
  have hparts := ((hscope.get? hf).self.outlined hk).parts part (List.mem_of_getElem? hpart)
  rcases hparts with he | he | he <;> rw [he] <;> rfl

theorem Commented.commitHeader (h : s.Commented Q) (hs : s.Sound) {head : Header}
    (hh : head.Sound s.node) (hn : head.node.Everywhere (Node.Commented Q)) :
    (s.commitHeader head).Commented Q := by
  have hk : Recordable head.node := recordable_of_kind .function hh.function (by decide)
  have hfinish : ∀ (t : OpenScope) (path : Option Path), t.Commented Q → t.Sound →
      (∀ p, path = some p → ∃ m, t.node.get? p = some m ∧ m.key = head.node.key) →
      Commented Q (t.update fun c =>
        (c.settleArgument (path.map (· ++ [head.node.children.length - 1]))).dropHeader.dropRun) := by
    intro t path ht hst hpath
    refine ht.update ((ht.current.settleArgument ?_).dropHeader.of_passes
      (Context.passes_dropRun _))
    intro p hp
    obtain ⟨q, hq, rfl⟩ := Option.map_eq_some_iff.mp hp
    obtain ⟨m, hm, hkey⟩ := hpath q hq
    exact spares_part hst.kept hm ((kind_eq_of_key hkey).trans hh.function) _
  have hcommit : ∀ home : Path, (∀ m, s.node.get? home = some m → m.kind.isScope = true) →
      Commented Q ((s.commitTo home head.node).1.update fun c =>
        (c.settleArgument ((s.commitTo home head.node).2.map
          (· ++ [head.node.children.length - 1]))).dropHeader.dropRun) := by
    intro home hhome
    obtain ⟨hcs, hpath⟩ := hs.commitTo hhome hh.kept hk.1
    refine hfinish _ _ (h.commitTo hhome hn hk) hcs.sound fun p hp => ?_
    obtain ⟨i, m, rfl, hm, hkey⟩ := hpath p hp
    exact ⟨m, hm, hkey⟩
  unfold OpenScope.commitHeader
  dsimp only
  split
  · refine hcommit [] fun m hm => ?_
    cases hm
    exact hs.scope
  · rename_i i hi
    exact hcommit [i] (isScope_at (hh.home _ hi))
  · rename_i home hi
    refine hfinish _ none ?_ ?_ nofun
    -- the node that is kept aside is not kept any longer
    · exact scope_commitAside h h.note _ _
    · obtain ⟨n, hn, hscope, hkept⟩ := hh.home _ hi
      cases hn
      exact (hs.commitAside hscope hkept hh.kept hk.1).1.sound

theorem commented_placeOf {node n : Node} (hn : node.Everywhere (Node.Commented Q))
    {path : Option Path} (hp : some (placeOf node path) = some (.aside n)) :
    n.Everywhere (Node.Commented Q) := by
  unfold OpenScope.placeOf at hp
  split at hp
  · cases hp
  · cases hp
    exact hn

/-! ## Claims -/

theorem Described.updateHeader (h : s.Described Q) {f : Node → Node}
    (hf : ∀ head, s.context.header = some head →
      (f head.node).Everywhere (Node.Commented Q)) :
    Described Q (s.update fun c => { c with header := c.header.map fun head =>
      { head with node := f head.node } }) := by
  refine h.update { h.context with header := fun head hhead => ?_ }
  obtain ⟨before, hbefore, rfl⟩ := Option.map_eq_some_iff.mp hhead
  exact hf before hbefore

theorem Described.updateRecord (h : s.Described Q) {record : Option Place}
    (hr : ∀ n, record = some (.aside n) → n.Everywhere (Node.Commented Q)) :
    Described Q (s.update ({ · with record })) :=
  h.update { h.context with record := hr }

theorem Described.updateEnumeration (h : s.Described Q) {enumeration : Option Place}
    (he : ∀ n, enumeration = some (.aside n) → n.Everywhere (Node.Commented Q)) :
    Described Q (s.update ({ · with enumeration })) :=
  h.update { h.context with enumeration := he }

theorem Commented.updateRecord (h : s.Commented Q) {record : Option Place}
    (hr : ∀ n, record = some (.aside n) → n.Everywhere (Node.Commented Q)) :
    Commented Q (s.update ({ · with record })) :=
  ⟨h.toDescribed.updateRecord hr, h.claims, h.suspended⟩

theorem Commented.updateEnumeration (h : s.Commented Q) {enumeration : Option Place}
    (he : ∀ n, enumeration = some (.aside n) → n.Everywhere (Node.Commented Q)) :
    Commented Q (s.update ({ · with enumeration })) :=
  ⟨h.toDescribed.updateEnumeration he, h.claims, h.suspended⟩

/-- After its description a claim is used up, so it does not matter where it would lead. -/
theorem Described.describeClaim (h : s.Described Q) {raw : String} (hraw : Q raw)
    (claim : Claim) : (s.describeClaim raw claim).Described Q := by
  cases claim with
  | recorded path => exact ⟨everywhere_commented_describeAt h.node hraw path, h.contexts⟩
  | argument =>
    exact h.updateHeader (f := fun n => n.modifyAt (·.describe raw) [n.children.length - 1])
      fun head hhead => everywhere_commented_describeAt (h.context.header head hhead) hraw _
  | constant i =>
    simp only [OpenScope.describeClaim]
    split
    · exact ⟨everywhere_commented_describeAt h.node hraw _, h.contexts⟩
    · rename_i node he
      refine h.updateEnumeration ?_
      rintro _ ⟨⟩
      exact everywhere_commented_describeAt (h.context.enumeration node he) hraw [i]
    · exact h

theorem Described.describeClaims (h : s.Described Q) {raw : String} (hraw : Q raw)
    (claims : List Claim) : (claims.foldl (OpenScope.describeClaim raw) s).Described Q := by
  induction claims generalizing s with
  | nil => exact h
  | cons claim claims ih => exact ih (h.describeClaim hraw claim)

theorem suspended_describeClaims (raw : String) (claims : List Claim) (s : OpenScope) :
    (claims.foldl (OpenScope.describeClaim raw) s).suspended = s.suspended := by
  induction claims generalizing s with
  | nil => rfl
  | cons claim claims ih =>
    refine (ih _).trans ?_
    cases claim with
    | recorded path => rfl
    | argument => rfl
    | constant i =>
      simp only [OpenScope.describeClaim]
      split <;> rfl

theorem Commented.withdrawClaim (h : s.Commented Q) (hs : s.Sound) {claim : Claim}
    (hclaim : claim.Spares s.node) : (s.withdrawClaim claim).Commented Q := by
  cases claim with
  | recorded path =>
    refine h.removeAt ?_
    rcases List.eq_nil_or_concat' path with rfl | ⟨home, i, rfl⟩
    · exact h.node
    · refine everywhere_commented_removeAt h.node home fun m hm _ part hpart => ?_
      refine hclaim _ rfl part ?_
      rw [get?_append, hm, Option.bind_some, get?_singleton]
      exact hpart
  | argument =>
    refine ⟨h.toDescribed.updateHeader
      (f := fun n => n.removeAt [n.children.length - 1]) fun head hhead => ?_, h.claims,
      h.suspended⟩
    refine everywhere_commented_removeAt (h.context.header head hhead) []
      fun m hm hk => ?_
    cases hm
    rw [(hs.context.header head hhead).function] at hk
    cases hk
  | constant i =>
    simp only [OpenScope.withdrawClaim]
    split
    · rename_i e he
      exact h.removeBelow [e] fun m hm =>
        State.ne_description_of_isScope (isScope_at (hs.context.enumeration _ he) m hm)
    · rename_i node he
      refine h.updateEnumeration ?_
      rintro _ ⟨⟩
      refine everywhere_commented_removeAt (h.context.enumeration node he) []
        fun m hm hk => ?_
      cases hm
      obtain ⟨n, hn, hscope, -⟩ := hs.context.enumeration _ he
      cases hn
      exact absurd hk (State.ne_description_of_isScope hscope)
    · exact h

theorem Commented.withdrawFirst (count : Nat) (h : s.Commented Q) (hs : s.Sound) :
    (withdrawFirst count s).Commented Q := by
  induction count generalizing s with
  | zero => exact h
  | succ count ih =>
    unfold OpenScope.withdrawFirst
    split
    · rename_i claim claims hclaim
      have hall : ∀ one ∈ claim :: claims, one.Spares s.node := fun one hone =>
        h.claims one (by simpa [Context.claims, hclaim] using hone)
      have hupdate : Commented Q (s.update ({ · with claim := some claims })) :=
        h.update (h.current.withClaim fun one hone => hall one (List.mem_cons_of_mem _ hone))
      have hsupdate : (s.update ({ · with claim := some claims })).Sound := by
        refine (hs.update (hs.context.withClaim ?_)).sound
        rintro _ ⟨⟩ path hp
        exact hs.context.claim _ hclaim path (List.mem_cons_of_mem _ hp)
      exact ih (hupdate.withdrawClaim hsupdate (hall claim (List.mem_cons_self ..)))
        (hsupdate.withdrawClaim claim).sound
    · exact h

theorem Commented.settleClaims (h : s.Commented Q) (hs : s.Sound) {raw : String} (hraw : Q raw)
    (claims : List Claim) : (s.settleClaims raw claims).Commented Q := by
  unfold OpenScope.settleClaims
  dsimp only
  split
  · have hw := h.withdrawFirst claims.length hs
    exact hw.update ⟨{ hw.context with }, nofun⟩
  · have hd := h.toDescribed.describeClaims hraw claims
    refine ⟨hd.update { hd.context with }, nofun, fun c hc => h.suspended c ?_⟩
    rw [← suspended_describeClaims raw claims s]
    exact hc

/-- A comment that has been read, where the property is kept when comments are joined. -/
theorem Commented.takeComment (h : s.Commented Q) (hs : s.Sound)
    (hjoined : ∀ first second, Q first → Q second → Q (first ++ "\n" ++ second)) {text : String}
    (ht : Q text) (line : Bool) : (s.takeComment text line).Commented Q := by
  unfold OpenScope.takeComment
  dsimp only
  split
  · exact h
  · split
    · exact h.settleClaims hs ht _
    · rename_i hclaim
      have hclaims : s.context.claims = [] := congrArg (Option.getD · []) hclaim
      split
      · have hd := h.describe hs hclaims ht
        split
        · exact ⟨⟨hd.node, hd.contexts⟩, hd.claims, hd.suspended⟩
        · exact hd
      · split
        · refine h.update ⟨{ h.context with runComment := ?_ }, h.claims⟩
          rintro _ ⟨⟩
          exact ht
        · refine h.update ⟨{ h.context with comment := ?_ }, h.claims⟩
          rintro _ ⟨⟩
          split
          · rename_i before hbefore
            split
            · exact hjoined before text (h.context.comment before hbefore) ht
            · exact ht
          · exact ht

/-! ## Functions -/

/-- What a function returns is described by the comment inside of its type. -/
theorem commented_resultOf? {run : Run} {comment : Option String}
    (hcomment : ∀ text, comment = some text → Q text) {n : Node}
    (hn : resultOf? run comment = some n) :
    n.kind = .result ∧ n.Everywhere (Node.Commented Q) := by
  unfold resultOf? at hn
  split at hn
  · dsimp only at hn
    split at hn
    · cases hn
    · cases hn
      exact ⟨kind_describe _ _,
        everywhere_commented_describeWith (everywhere_commented_typed rfl) rfl hcomment⟩
  · cases hn

theorem Commented.startFunction (h : s.Commented Q) (word : String) :
    (s.startFunction word).Commented Q := by
  unfold OpenScope.startFunction
  dsimp only
  split
  · exact h.update_passes (Context.passes_dropRun _)
  · have hd : (s.context.takeComment.dropRun).Described Q :=
      h.context.of_passes ((Context.passes_takeComment _).trans (Context.passes_dropRun _))
    refine h.update ⟨{ hd with header := ?_ }, h.claims⟩
    rintro _ ⟨⟩
    have hresult : ∀ c ∈ (resultOf? s.context.run s.context.runComment).toList,
        c.kind = .result ∧ c.Everywhere (Node.Commented Q) := fun c hc =>
      commented_resultOf? h.context.runComment (Option.mem_toList.mp hc)
    refine everywhere_commented_describeWith ?_ rfl h.context.comment
    refine everywhere_commented_undescribed (fun c hc => ?_) fun c hc => (hresult c hc).2
    rw [(hresult c hc).1]
    exact nofun

/-! ## Variables and names for types -/

theorem Commented.declareVariable (h : s.Commented Q) (hs : s.Sound) (terminator : Char) :
    (s.declareVariable terminator).Commented Q := by
  unfold OpenScope.declareVariable
  split
  · exact h.update_passes (Context.passes_dropRun _)
  · rename_i d _
    have hkept : ((d.toNode .var).withScope s.context.access).Kept :=
      (d.kept_toNode (k := .var) rfl rfl).congr rfl rfl
    have hu : Commented Q (s.update fun c => { c.dropRun.takeComment with
        base := if terminator == ',' then d.type.takeWhile (·.isWord) else [] }) :=
      h.update_passes ⟨rfl, .inl rfl, .inl rfl⟩
    exact hu.commitClaimed (hs.update_refs rfl).sound
      (everywhere_commented_describeIf (everywhere_commented_typed rfl) h.context.comment)
      (hkept.describeIf _)
      (recordable_of_kind .var (kind_eq_of_key (key_describeIf _ _)) (by decide))

theorem Commented.declareAlias (h : s.Commented Q) (hs : s.Sound) (name : String) (type : Run) :
    (s.declareAlias name type).Commented Q := by
  have hkept : Kept { ofName .typeAlias name with children := [type.closeUp.toType] } := by
    refine kept_of_children (wellKept_of_kind rfl rfl) fun c hc => ?_
    rw [List.mem_singleton.mp hc]
    exact Run.kept_toType _
  have hu : Commented Q (s.update fun c => { c.takeComment with run := [] }) :=
    h.update_passes ⟨rfl, .inl rfl, .inr rfl⟩
  unfold OpenScope.declareAlias
  exact hu.commitClaimed (hs.update_refs rfl).sound
    (everywhere_commented_describeIf (everywhere_commented_typed rfl) h.context.comment)
    (hkept.describeIf _)
    (recordable_of_kind .typeAlias (kind_eq_of_key (key_describeIf _ _)) (by decide))

theorem Commented.finishAlias (h : s.Commented Q) (hs : s.Sound) : s.finishAlias.Commented Q := by
  unfold OpenScope.finishAlias
  dsimp only
  split
  · exact h.declareAlias hs _ _
  · exact h

/-! ## Declarators after a definition -/

/-- A node without a name is given one and recorded. -/
theorem Commented.nameAside (h : s.Commented Q) (hs : s.Sound) (name : String)
    {place : Option Place} (hp : ∀ p, place = some p → p.Sound s.node)
    (hn : ∀ n, place = some (.aside n) → n.Everywhere (Node.Commented Q)) :
    (s.nameAside name place).1.Commented Q ∧
      ∀ n, (s.nameAside name place).2 = some (.aside n) → n.Everywhere (Node.Commented Q) := by
  unfold OpenScope.nameAside
  split
  · rename_i node
    obtain ⟨m, hm, hscope, -⟩ := hp _ rfl
    cases hm
    split
    · have hnode : (node.withName name).Everywhere (Node.Commented Q) :=
        everywhere_commented_congr (hn node rfl) rfl rfl
      exact ⟨h.commit hs hnode (recordable_of_isScope hscope), fun n hn =>
        commented_placeOf hnode hn⟩
    · exact ⟨h, hn⟩
  · exact ⟨h, hn⟩

theorem Commented.declareAwaited (h : s.Commented Q) (hs : s.Sound) (name : String) :
    (s.declareAwaited name).Commented Q := by
  unfold OpenScope.declareAwaited
  split
  · rename_i node hnode
    obtain ⟨hkind, hkept⟩ := hs.context.typeAlias node hnode
    have hnamed : ((node.withName name).withChildren
        (s.context.run.closeUp.toType :: node.children)).kind = .typeAlias := hkind
    have htype := everywhere_commented_toType (Q := Q) s.context.run.closeUp
    refine h.commitClaimed hs ?_ (kept_of_children (wellKept_of_kind ?_ ?_) fun c hc => ?_) ?_
    · refine everywhere_commented_of_mem (h.context.typeAlias node hnode) rfl fun c hc => ?_
      rcases List.mem_cons.mp hc with rfl | hc
      · exact .inr ⟨nofun, htype⟩
      · exact .inl hc
    · rw [hnamed]
      rfl
    · rw [hnamed]
      rfl
    · rcases List.mem_cons.mp hc with rfl | hc
      · exact Run.kept_toType _
      · exact hkept.child hc
    · exact recordable_of_kind .typeAlias hnamed (by decide)
  · exact h.update (h.current.withClaim nofun)

/-- The end of a declarator after a definition: its claims are on scopes as well. -/
theorem Commented.endDefinition (h : s.Commented Q) (hs : s.Sound) (aliased : Bool) :
    Commented Q (s.update (·.afterDefinition aliased)) := by
  have hplace : ∀ place, (∀ p, place = some p → p.Sound s.node) →
      ∀ claim ∈ claimOnPlace place, claim.Spares s.node := by
    intro place hp claim hclaim
    unfold claimOnPlace at hclaim
    split at hclaim
    · rename_i i
      rw [List.mem_singleton.mp hclaim]
      obtain ⟨m, hm, hscope, -⟩ := hp _ rfl
      exact Claim.spares_of_get? ((get?_singleton _ i).trans hm) (recordable_of_isScope hscope).2
    · cases hclaim
  refine h.update ⟨{ h.context with record := nofun, enumeration := nofun, typeAlias := nofun },
    fun claim hclaim => ?_⟩
  rcases Context.mem_claims_afterDefinition hclaim with hclaim | hclaim | hclaim
  · exact h.claims claim hclaim
  · exact hplace _ hs.context.record claim hclaim
  · exact hplace _ hs.context.enumeration claim hclaim

theorem Commented.declareDefined (h : s.Commented Q) (hs : s.Sound) (name : String) :
    (s.declareDefined name).Commented Q := by
  have hfirst := h.declareAwaited hs name
  have hsfirst := (hs.declareAwaited name).sound
  obtain ⟨hrecord, hrplace⟩ :=
    hfirst.nameAside hsfirst name hsfirst.context.record hfirst.context.record
  obtain ⟨hsrecord, hsrplace⟩ := hsfirst.nameAside name hsfirst.context.record
  have hr := hrecord.updateRecord hrplace
  have hsr := (hsrecord.sound.updateRecord hsrplace).sound
  obtain ⟨henum, heplace⟩ :=
    hr.nameAside hsr name hsr.context.enumeration hr.context.enumeration
  obtain ⟨hsenum, hseplace⟩ := hsr.nameAside name hsr.context.enumeration
  exact (henum.updateEnumeration heplace).endDefinition
    (hsenum.sound.noteEnumeration hseplace).sound s.context.typeAlias.isSome

theorem Commented.endDeclarator (h : s.Commented Q) (hs : s.Sound) (word : String)
    (terminator : Char) : (s.endDeclarator word terminator).Commented Q := by
  unfold OpenScope.endDeclarator
  dsimp only
  split
  · exact h.declareDefined hs word
  · split
    · exact h.declareAlias hs _ _
    · have hpushed := h.update_passes (f := (·.pushWord word)) (Context.passes_pushWord _ word)
      have hspushed := hs.update_refs (f := (·.pushWord word)) (Context.refs_pushWord _ word)
      split
      · split
        · exact h.update_passes (Context.passes_dropRun _)
        · exact hpushed.declareVariable hspushed.sound terminator
      · exact hpushed

/-! ## Words -/

theorem Commented.declareConstant (h : s.Commented Q) (hs : s.Sound) (word : String) :
    (s.declareConstant word).Commented Q := by
  have hnode : ((ofName .constant word).describeIf s.context.comment).Everywhere
      (Node.Commented Q) :=
    everywhere_commented_describeIf (everywhere_commented_leaf rfl) h.context.comment
  have hk : Recordable ((ofName .constant word).describeIf s.context.comment) :=
    recordable_of_kind .constant (kind_eq_of_key (key_describeIf _ _)) (by decide)
  have hclaim : ∀ (t : OpenScope) (i : Nat), t.Commented Q →
      Commented Q (t.update ({ · with claim := some [.constant i] })) := by
    intro t i ht
    refine ht.update (ht.current.withClaim fun claim hclaim => ?_)
    rw [List.mem_singleton.mp hclaim]
    exact Claim.spares_constant _ i
  have ht := h.update_passes (Context.passes_takeComment _)
  have hst := (hs.update_refs (f := .takeComment) (Context.refs_takeComment _)).sound
  unfold OpenScope.declareConstant
  dsimp only
  split
  · rename_i e he
    have hc := ht.commitTo (isScope_at (hst.context.enumeration _ he)) hnode hk
    split
    · rename_i t path hcommit
      rw [hcommit] at hc
      exact hclaim _ _ hc
    · rename_i t hcommit
      rw [hcommit] at hc
      exact hc
  · rename_i home he
    obtain ⟨hc, hhome⟩ := ht.commitAside (ht.context.enumeration home he) hnode hk
    split
    · rename_i t i home' hcommit
      rw [hcommit] at hc hhome
      have hnew : ∀ n, some (Place.aside home') = some (.aside n) →
          n.Everywhere (Node.Commented Q) := by
        rintro _ ⟨⟩
        exact hhome
      exact hclaim _ i (hc.updateEnumeration hnew)
    · rename_i t home' hcommit
      rw [hcommit] at hc
      exact hc
  · exact ht

theorem Commented.declarationWord (h : s.Commented Q) (hs : s.Sound) (word : String)
    (terminator : Char) : (s.declarationWord word terminator).Commented Q := by
  unfold OpenScope.declarationWord
  dsimp only
  split
  · exact h.update_passes ⟨rfl, .inr rfl, .inr rfl⟩
  · have hstart := h.update_passes (Context.passes_startRun _)
    have hsstart := (hs.update_refs (f := .startRun) (Context.refs_startRun _)).sound
    split
    · exact hstart.startFunction word
    · split
      · split
        · exact hstart.update_passes (Context.passes_dropRun _)
        · exact hstart.update
            (hstart.current.of_passes (Context.passes_pushWord _ word)).addArgument
      · split
        · exact hstart.endDeclarator hsstart word terminator
        · exact hstart.update_passes (Context.passes_pushWord _ word)

theorem Commented.word (h : s.Commented Q) (hs : s.Sound) (word : String) (terminator : Char) :
    (s.word word terminator).Commented Q := by
  unfold OpenScope.word
  dsimp only
  split
  · exact h.declarationWord hs word terminator
  · split
    · split
      · exact h.declareConstant hs word
      · exact h
    · exact h.update_passes (Context.passes_dropRun _)

/-! ## Semicolons -/

theorem Commented.endHeader (h : s.Commented Q) (hs : s.Sound) : s.endHeader.Commented Q := by
  unfold OpenScope.endHeader
  split
  · rename_i head hhead
    split
    · exact h.commitHeader hs (hs.context.header head hhead) (h.context.header head hhead)
    · exact h.update h.current.dropHeader
  · exact h

theorem Commented.endRun (h : s.Commented Q) (hs : s.Sound) : s.endRun.Commented Q := by
  unfold OpenScope.endRun
  split
  · exact h.finishAlias hs
  · split
    · exact h.declareVariable hs ';'
    · exact h

theorem Commented.semicolon (h : s.Commented Q) (hs : s.Sound) : s.semicolon.Commented Q := by
  have hrun := (h.endHeader hs).endRun hs.endHeader.sound
  unfold OpenScope.semicolon
  refine hrun.update ⟨?_, ?_⟩
  · dsimp only
    split
    · exact hrun.context.forget (.inr rfl) (.inl rfl) (.inr rfl) (.inl rfl) (.inl rfl) (.inl rfl)
    · exact hrun.context.forget (.inr rfl) (.inl rfl) (.inr rfl) (.inl rfl) (.inr rfl) (.inr rfl)
  · dsimp only
    split <;> exact hrun.claims

end OpenScope

end HeaderDocs.Scan
