import HeaderDocs.Proofs.Scan.DeclaredNames
import HeaderDocs.Proofs.Scan.Scopes

/-!
# The names in a scope that is being filled

Whatever is declared in a scope is recorded under a word of the source, under a lexeme of the
declaration or under its declarator, so all names in the scope are declared ones (`OpenScope.Named`).

* `Named.commitTo`: recording a node.
* `Named.takeComment`: comments name nothing.
* `Named.word`, `Named.semicolon`: what declarations do.
-/
namespace HeaderDocs.Scan

open HeaderDocs.Node

namespace OpenScope

/-- The names in the node of a scope, and in what its contexts hold on to. -/
structure Named (s : OpenScope) : Prop where
  node : s.node.Declared
  contexts : ∀ c ∈ s.context :: s.suspended, c.Named

variable {s : OpenScope}

theorem Named.context (h : s.Named) : s.context.Named := h.contexts _ (List.mem_cons_self ..)

theorem Named.update (h : s.Named) {f : Context → Context} (hf : (f s.context).Named) :
    (s.update f).Named := by
  refine ⟨h.node, fun c hc => ?_⟩
  rcases List.mem_cons.mp hc with rfl | hc
  · exact hf
  · exact h.contexts c (List.mem_cons_of_mem _ hc)

theorem Named.mapContexts (h : s.Named) {f : Context → Context}
    (hf : ∀ c : Context, c.Named → (f c).Named) {node : Node}
    (hn : node.Declared) : Named { s.mapContexts f with node } := by
  refine ⟨hn, fun c hc => ?_⟩
  have hc : c ∈ (s.context :: s.suspended).map f := hc
  obtain ⟨d, hd, rfl⟩ := List.mem_map.mp hc
  exact hf d (h.contexts d hd)

theorem Named.removeAt (h : s.Named) (path : Path) : (s.removeAt path).Named := by
  unfold OpenScope.removeAt
  split
  · rename_i removed hr
    exact h.mapContexts (fun c hc => hc.afterRemove path (h.node.get? hr))
      (everywhere_named_removeAt h.node path)
  · exact h

theorem Named.modifyAt (h : s.Named) {f : Node → Node}
    (hf : ∀ m : Node, m.Declared → (f m).Declared) (path : Path) : (s.modifyAt f path).Named :=
  ⟨everywhere_named_modifyAt hf h.node path, h.contexts⟩

theorem Named.describe (h : s.Named) (raw : String) : (s.describe raw).Named := by
  have hnode := everywhere_named_describe h.node raw
  unfold OpenScope.describe
  dsimp only
  split
  · exact ⟨hnode, (h.removeAt _).contexts⟩
  · exact ⟨hnode, h.contexts⟩

/-! ### Recording -/

theorem Named.noteRecorded (h : s.Named) (home : Path) (kind : Kind) (name : String) :
    (s.noteRecorded home kind name).Named := by
  unfold OpenScope.noteRecorded
  dsimp only
  split <;> exact ⟨h.node, h.contexts⟩

theorem Named.commitTo (h : s.Named) (home : Path) {node : Node} (hn : node.Declared) :
    (s.commitTo home node).1.Named := by
  refine s.commitTo_cases home node (fun _ => ⟨h.node, h.contexts⟩) (fun _ => h) ?_
  intro m ins room _ _ hins hroom
  have hremoved : room.Named := hroom.of_removeAt h fun i => h.removeAt _
  have hinsert : Declared (s.node.modifyAt (fun m => m.withChildren (ins.apply m.children)) home) :=
    everywhere_named_modifyAt
      (fun _ hm => everywhere_named_insert hm (everywhere_named_insertion hn hins)) h.node home
  refine Named.noteRecorded (hremoved.mapContexts (fun c hc => hc.afterInsert _) ?_) _ _ _
  exact hroom.insertAt.symm ▸ hinsert

theorem Named.commitNamed (h : s.Named) {node : Node} (hn : node.Declared) :
    (s.commitNamed node).1.Named := by
  unfold OpenScope.commitNamed
  split
  · exact h
  · exact h.commitTo [] hn

theorem Named.commitClaimed (h : s.Named) {node : Node}
    (hn : node.Declared) :
    Named ((s.commit node).1.update ({ · with claim := claimOn (s.commit node).2 })) :=
  have hc := h.commitTo [] hn
  hc.update { hc.context with }

/-- Recording a node in one that is kept aside leaves the scope as it is, up to messages. -/
theorem Named.commitAside (h : s.Named) (home node : Node) : (s.commitAside home node).1.Named :=
  scope_commitAside h (fun _ => ⟨h.node, h.contexts⟩) home node

theorem declared_commitAside (s : OpenScope) {home node : Node} (hh : home.Declared)
    (hn : node.Declared) : (s.commitAside home node).2.2.Declared :=
  s.aside_commitAside hh fun _ _ hins =>
    everywhere_named_insert hh (everywhere_named_insertion hn hins)

theorem Named.commitHeader (h : s.Named) {head : Header} (hn : head.node.Declared) :
    (s.commitHeader head).Named := by
  have hfinish : ∀ (t : OpenScope) (path : Option Path), t.Named →
      Named (t.update fun c => (c.settleArgument path).dropHeader.dropRun) := fun t path ht =>
    ht.update { ht.context with run := .nil, header := nofun }
  unfold OpenScope.commitHeader
  dsimp only
  split
  · exact hfinish _ _ (h.commitTo [] hn)
  · exact hfinish _ _ (h.commitTo _ hn)
  · exact hfinish _ _ (h.commitAside _ _)

theorem named_placeOf {node n : Node} (hn : node.Declared) {path : Option Path}
    (hp : some (placeOf node path) = some (.aside n)) : n.Declared := by
  unfold OpenScope.placeOf at hp
  split at hp
  · cases hp
  · cases hp
    exact hn

/-! ### Comments -/

theorem Named.updateHeader (h : s.Named) {f : Node → Node}
    (hf : ∀ n : Node, n.Declared → (f n).Declared) :
    Named (s.update fun c => { c with header := c.header.map fun head =>
      { head with node := f head.node } }) := by
  refine h.update { h.context with header := fun head hhead => ?_ }
  obtain ⟨before, hbefore, rfl⟩ := Option.map_eq_some_iff.mp hhead
  exact hf _ (h.context.header before hbefore)

theorem Named.updateEnumeration (h : s.Named) {enumeration : Option Place}
    (he : ∀ n, enumeration = some (.aside n) → n.Declared) :
    Named (s.update ({ · with enumeration })) :=
  h.update { h.context with enumeration := he }

theorem Named.describeClaim (h : s.Named) (raw : String) (claim : Claim) :
    (s.describeClaim raw claim).Named := by
  have hat : ∀ {n : Node} (path : Path), n.Declared → (n.modifyAt (·.describe raw) path).Declared :=
    fun path hn => everywhere_named_modifyAt (fun _ hm => everywhere_named_describe hm raw) hn path
  cases claim with
  | recorded path => exact h.modifyAt (fun _ hm => everywhere_named_describe hm raw) path
  | argument =>
    exact h.updateHeader (f := fun n => n.modifyAt (·.describe raw) [n.children.length - 1])
      fun n hn => hat _ hn
  | constant i =>
    simp only [OpenScope.describeClaim]
    split
    · exact h.modifyAt (fun _ hm => everywhere_named_describe hm raw) _
    · rename_i node he
      refine h.updateEnumeration ?_
      rintro _ ⟨⟩
      exact hat [i] (h.context.enumeration node he)
    · exact h

theorem Named.withdrawClaim (h : s.Named) (claim : Claim) : (s.withdrawClaim claim).Named := by
  cases claim with
  | recorded path => exact h.removeAt path
  | argument =>
    exact h.updateHeader (f := fun n => n.removeAt [n.children.length - 1])
      fun n hn => everywhere_named_removeAt hn _
  | constant i =>
    simp only [OpenScope.withdrawClaim]
    split
    · exact h.removeAt _
    · rename_i node he
      refine h.updateEnumeration ?_
      rintro _ ⟨⟩
      exact everywhere_named_removeAt (h.context.enumeration node he) [i]
    · exact h

theorem Named.withdrawFirst (count : Nat) (h : s.Named) : (withdrawFirst count s).Named := by
  induction count generalizing s with
  | zero => exact h
  | succ count ih =>
    unfold OpenScope.withdrawFirst
    split
    · rename_i claims _
      exact ih ((h.update (f := ({ · with claim := some claims })) { h.context with }).withdrawClaim _)
    · exact h

theorem Named.describeClaims (h : s.Named) (raw : String) (claims : List Claim) :
    (claims.foldl (OpenScope.describeClaim raw) s).Named := by
  induction claims generalizing s with
  | nil => exact h
  | cons claim claims ih => exact ih (h.describeClaim raw claim)

theorem Named.settleClaims (h : s.Named) (raw : String) (claims : List Claim) :
    (s.settleClaims raw claims).Named := by
  have hforget : ∀ t : OpenScope, t.Named →
      Named (t.update ({ · with claim := none, joinable := false })) := fun t ht =>
    ht.update { ht.context with }
  unfold OpenScope.settleClaims
  dsimp only
  split
  · exact hforget _ (h.withdrawFirst _)
  · exact hforget _ (h.describeClaims raw claims)

theorem Named.takeComment (h : s.Named) (text : String) (line : Bool) :
    (s.takeComment text line).Named := by
  have hdescribed := h.describe text
  unfold OpenScope.takeComment
  dsimp only
  split
  · exact h
  · split
    · exact h.settleClaims text _
    · split
      · split <;> exact ⟨hdescribed.node, hdescribed.contexts⟩
      · split <;> exact h.update { h.context with }

/-! ### Declarations -/

theorem Named.startFunction (h : s.Named) {word : String} (hw : Made IsIdChar word) :
    (s.startFunction word).Named := by
  unfold OpenScope.startFunction
  dsimp only
  split
  · exact h.update h.context.dropRun
  · refine h.update { h.context.dropRun with header := ?_ }
    rintro _ ⟨⟩
    refine everywhere_named_describe (everywhere_named_function rfl (.inl ?_) _ _) _
    split
    · rename_i hsplit
      exact made_of_splitQualified hw hsplit
    · exact hw

theorem Named.declareVariable (h : s.Named) (terminator : Char) :
    (s.declareVariable terminator).Named := by
  unfold OpenScope.declareVariable
  split
  · exact h.update h.context.dropRun
  · rename_i d hd
    have hbase : Run.Each IsLexeme (if terminator == ',' then d.type.takeWhile (·.isWord) else []) := by
      split
      · exact (Declarator.each_type h.context.run hd).subset (List.takeWhile_sublist _).subset
      · exact .nil
    have hu := h.update (f := fun c => { c.dropRun.takeComment with
      base := if terminator == ',' then d.type.takeWhile (·.isWord) else [] })
      { h.context.dropRun with base := hbase }
    have hname := Declarator.isDeclared_name h.context.run hd
    exact hu.commitClaimed
      (everywhere_named_describeIf (everywhere_named_typed (named_of_some rfl hname) rfl) _)

theorem Named.declareAlias (h : s.Named) {name : String} (hn : IsDeclared name) (type : Run) :
    (s.declareAlias name type).Named := by
  unfold OpenScope.declareAlias
  have hu := h.update (f := fun c => { c.takeComment with run := [] }) { h.context with run := .nil }
  exact hu.commitClaimed
    (everywhere_named_describeIf (everywhere_named_typed (named_of_some rfl hn) rfl) _)

theorem Named.finishAlias (h : s.Named) : s.finishAlias.Named := by
  unfold OpenScope.finishAlias
  dsimp only
  split
  · rename_i f hf
    exact h.declareAlias (h.context.run f (List.mem_of_getElem? hf)).isDeclared _
  · exact h

/-- A node without a name is given one and recorded. -/
theorem Named.nameAside (h : s.Named) {name : String} (hname : IsDeclared name) {place : Option Place}
    (hp : ∀ n, place = some (.aside n) → n.Declared) :
    (s.nameAside name place).1.Named ∧
      ∀ n, (s.nameAside name place).2 = some (.aside n) → n.Declared := by
  unfold OpenScope.nameAside
  split
  · rename_i node
    split
    · have hnode : (node.withName name).Declared :=
        everywhere_named_of_mem (hp node rfl) (named_of_some rfl hname) fun _ => .inl
      exact ⟨h.commitTo [] hnode, fun n hn => named_placeOf hnode hn⟩
    · exact ⟨h, hp⟩
  · exact ⟨h, hp⟩

theorem Named.declareAwaited (h : s.Named) {name : String} (hname : IsDeclared name) :
    (s.declareAwaited name).Named := by
  unfold OpenScope.declareAwaited
  split
  · rename_i node hnode
    refine h.commitClaimed (everywhere_named_of_mem (h.context.typeAlias node hnode)
      (named_of_some rfl hname) fun c hc => ?_)
    rcases List.mem_cons.mp hc with rfl | hc
    · exact .inr (Run.everywhere_named_toType _)
    · exact .inl hc
  · exact h.update { h.context with }

/-- The end of a declarator after a definition: only claims are left of what was referred to. -/
theorem Named.endDefinition (h : s.Named) (aliased : Bool) :
    Named (s.update (·.afterDefinition aliased)) :=
  h.update { h.context with run := .nil, record := nofun, enumeration := nofun, typeAlias := nofun }

theorem Named.declareDefined (h : s.Named) {name : String} (hname : IsDeclared name) :
    (s.declareDefined name).Named := by
  have hfirst := h.declareAwaited hname
  obtain ⟨hrecord, hrplace⟩ := hfirst.nameAside hname hfirst.context.record
  have hr := hrecord.update (f := ({ · with record := (OpenScope.nameAside name
    (s.declareAwaited name).context.record (s.declareAwaited name)).2 }))
    { hrecord.context with record := hrplace }
  obtain ⟨henum, heplace⟩ := hr.nameAside hname hr.context.enumeration
  exact (henum.updateEnumeration heplace).endDefinition s.context.typeAlias.isSome

theorem Named.endDeclarator (h : s.Named) {word : String} (hw : Made IsIdChar word)
    (terminator : Char) : (s.endDeclarator word terminator).Named := by
  unfold OpenScope.endDeclarator
  dsimp only
  split
  · exact h.declareDefined (.inl hw)
  · split
    · exact h.declareAlias (.inl hw) _
    · have hpushed := h.update (f := (·.pushWord word)) (h.context.pushWord (.inl hw))
      split
      · split
        · exact h.update h.context.dropRun
        · exact hpushed.declareVariable terminator
      · exact hpushed

theorem Named.declareConstant (h : s.Named) {word : String} (hw : Made IsIdChar word) :
    (s.declareConstant word).Named := by
  have hnode : ((ofName .constant word).describeIf s.context.comment).Declared :=
    everywhere_named_describeIf (everywhere_named_leaf (named_of_some rfl (.inl hw)) rfl) _
  have ht := h.update (f := .takeComment) { h.context with }
  unfold OpenScope.declareConstant
  dsimp only
  split
  · rename_i e _
    have hc := ht.commitTo [e] hnode
    split
    · rename_i t path hcommit
      rw [hcommit] at hc
      exact hc.update { hc.context with }
    · rename_i t hcommit
      rw [hcommit] at hc
      exact hc
  · rename_i home he
    have hc := ht.commitAside home ((ofName .constant word).describeIf s.context.comment)
    have hhome := declared_commitAside (s.update .takeComment) (ht.context.enumeration home he) hnode
    split
    · rename_i t i home' hcommit
      rw [hcommit] at hc hhome
      refine hc.update { hc.context with enumeration := ?_ }
      rintro _ ⟨⟩
      exact hhome
    · rename_i t home' hcommit
      rw [hcommit] at hc
      exact hc
  · exact ht

theorem Named.declarationWord (h : s.Named) {word : String} (hw : Made IsIdChar word)
    (terminator : Char) : (s.declarationWord word terminator).Named := by
  unfold OpenScope.declarationWord
  dsimp only
  split
  · exact h.update { h.context with }
  · have hstart := h.update (f := .startRun) h.context.startRun
    split
    · exact hstart.startFunction hw
    · split
      · split
        · exact hstart.update hstart.context.dropRun
        · exact hstart.update (hstart.context.pushWord (.inl hw)).addArgument
      · split
        · exact hstart.endDeclarator hw terminator
        · exact hstart.update (hstart.context.pushWord (.inl hw))

theorem Named.word (h : s.Named) {word : String} (hw : Made IsIdChar word) (terminator : Char) :
    (s.word word terminator).Named := by
  unfold OpenScope.word
  dsimp only
  split
  · exact h.declarationWord hw terminator
  · split
    · split
      · exact h.declareConstant hw
      · exact h
    · exact h.update h.context.dropRun

theorem Named.endHeader (h : s.Named) : s.endHeader.Named := by
  unfold OpenScope.endHeader
  split
  · rename_i head hhead
    split
    · exact h.commitHeader (h.context.header head hhead)
    · exact h.update { h.context with header := nofun }
  · exact h

theorem Named.endRun (h : s.Named) : s.endRun.Named := by
  unfold OpenScope.endRun
  split
  · exact h.finishAlias
  · split
    · exact h.declareVariable ';'
    · exact h

theorem Named.semicolon (h : s.Named) : s.semicolon.Named := by
  have hrun := h.endHeader.endRun
  unfold OpenScope.semicolon
  refine hrun.update ?_
  dsimp only
  split
  · exact { hrun.context.dropRun with
      record := nofun, base := .nil, typeAlias := nofun, enumeration := nofun }
  · exact { hrun.context.dropRun with record := nofun, base := .nil }

end OpenScope

end HeaderDocs.Scan
