import HeaderDocs.Proofs.Scan.Plain
import HeaderDocs.Proofs.Scan.Scopes
import HeaderDocs.Proofs.Tree.Written

/-!
# What fragments and comments have in common

A property of all words, marks and literals of a source, and one of all its comments, are properties
of everything that is made of them: the run of a declaration, the types that are recorded, and the
descriptions (`OpenScope.Written`).

* `Lexicon`: what the two properties have to allow for.
* `Written.takeComment`: what comments do.
* `Written.word`, `Written.semicolon`: what declarations do.
-/
namespace HeaderDocs.Scan

open HeaderDocs.Node

/-- A property of fragments that the marks have, and a property of comments that is kept when a
comment is read and when two of them are joined. -/
structure Lexicon (P Q : String → Prop) : Prop where
  marks : ∀ mark ∈ ["*", "+", "-", "&", ":", "(", ")", ",", "=", "/"], P mark
  empty : Q ""
  joined : ∀ first second, Q first → Q second → Q (first ++ "\n" ++ second)
  normalized : ∀ raw, Q raw → Q (Comment.normalize raw).text

/-! ## Runs -/

/-- Every fragment of a run has the property. -/
def Run.Each (P : String → Prop) (run : Run) : Prop := ∀ f ∈ run, P f.text

variable {P Q : String → Prop} {run : Run}

namespace Run.Each

theorem nil : Run.Each P [] := nofun

theorem subset {rest : Run} (h : run.Each P) (hs : rest ⊆ run) : rest.Each P :=
  fun f hf => h f (hs hf)

theorem push (h : run.Each P) {text : String} (ht : P text) (spaced : Bool) :
    (run.push text spaced).Each P := by
  intro f hf
  rcases List.mem_append.mp hf with hf | hf
  · exact h f hf
  · rw [List.mem_singleton.mp hf]
    exact ht

theorem closeUp (h : run.Each P) : run.closeUp.Each P := by
  cases run with
  | nil => exact nil
  | cons f run =>
    intro g hg
    rcases List.mem_cons.mp hg with rfl | hg
    · exact h f (List.mem_cons_self ..)
    · exact h g (List.mem_cons_of_mem _ hg)

theorem toType (h : run.Each P) : run.toType.Everywhere (Written P Q) := by
  refine everywhere_iff.mpr ⟨fun c hc => ?_, fun c hc => ?_⟩
  · obtain ⟨f, hf, rfl⟩ := List.mem_map.mp hc
    exact .inl ⟨rfl, h f hf⟩
  · obtain ⟨f, -, rfl⟩ := List.mem_map.mp hc
    exact everywhere_written_leaf rfl

end Run.Each

theorem Declarator.each_type (h : run.Each P) {d : Declarator}
    (hd : Declarator.ofRun? run = some d) : d.type.Each P := by
  unfold Declarator.ofRun? at hd
  dsimp only at hd
  split at hd
  · cases hd
  · cases hd
    refine Run.Each.closeUp (h.subset ?_)
    exact ((List.take_sublist _ _).trans (List.takeWhile_sublist _)).subset

/-- A node that is neither a type nor a description, nor a piece of text, may hold anything. -/
theorem written_of_kind {n : Node} (hk : ∀ c, MayHold P Q n.kind c)
    (hc : ∀ c ∈ n.children, c.Everywhere (Written P Q)) : n.Everywhere (Written P Q) :=
  everywhere_iff.mpr ⟨fun c _ => hk c, hc⟩

theorem Declarator.written_toNode (kind : Kind) (hk : ∀ c, MayHold P Q kind c) {d : Declarator}
    (h : d.type.Each P) : (d.toNode kind).Everywhere (Written P Q) := by
  refine written_of_kind hk fun c hc => ?_
  rw [List.mem_singleton.mp hc]
  exact h.toType

/-! ## Nodes that are made -/

theorem Lexicon.describe (hl : Lexicon P Q) {raw : String} (hraw : Q raw) {n : Node}
    (h : n.Everywhere (Written P Q)) : (n.describe raw).Everywhere (Written P Q) :=
  everywhere_written_describe h (hl.normalized raw hraw)

theorem Lexicon.describeIf (hl : Lexicon P Q) {comment : Option String}
    (hc : ∀ text, comment = some text → Q text) {n : Node} (h : n.Everywhere (Written P Q)) :
    (n.describeIf comment).Everywhere (Written P Q) := by
  cases comment with
  | none => exact h
  | some raw => exact hl.describe (hc raw rfl) h

theorem Lexicon.describeWith (hl : Lexicon P Q) {comment : Option String}
    (hc : ∀ text, comment = some text → Q text) {n : Node} (h : n.Everywhere (Written P Q)) :
    (n.describe (comment.getD "")).Everywhere (Written P Q) := by
  cases comment with
  | none => exact hl.describe hl.empty h
  | some raw => exact hl.describe (hc raw rfl) h

theorem written_resultOf? (hl : Lexicon P Q) (h : run.Each P) {comment : Option String}
    (hc : ∀ text, comment = some text → Q text) (n : Node)
    (hn : OpenScope.resultOf? run comment = some n) : n.Everywhere (Written P Q) := by
  unfold OpenScope.resultOf? at hn
  split at hn
  · dsimp only at hn
    split at hn
    · cases hn
    · cases hn
      refine hl.describeWith hc (written_of_kind (fun _ => trivial) fun c hc => ?_)
      rw [List.mem_singleton.mp hc]
      exact h.closeUp.toType
  · cases hn

/-! ## Contexts -/

namespace Context

/-- The fragments, the comments and the nodes that a context holds on to. -/
structure Written (P Q : String → Prop) (c : Context) : Prop where
  run : c.run.Each P
  base : c.base.Each P
  runComment : ∀ text, c.runComment = some text → Q text
  comment : ∀ text, c.comment = some text → Q text
  header : ∀ h, c.header = some h → h.node.Everywhere (Node.Written P Q)
  record : ∀ n, c.record = some (.aside n) → n.Everywhere (Node.Written P Q)
  enumeration : ∀ n, c.enumeration = some (.aside n) → n.Everywhere (Node.Written P Q)
  typeAlias : ∀ n, c.typeAlias = some n → n.Everywhere (Node.Written P Q)

variable {c d : Context}

theorem written_ofScope (scope : Node) : (Context.ofScope scope).Written P Q :=
  ⟨nofun, nofun, nofun, nofun, nofun, nofun, nofun, nofun⟩

theorem Written.startRun (h : c.Written P Q) : c.startRun.Written P Q := by
  unfold Context.startRun
  split
  · exact { h with run := h.base, base := .nil }
  · exact h

theorem Written.dropRun (h : c.Written P Q) : c.dropRun.Written P Q :=
  { h with run := .nil, runComment := nofun }

theorem Written.takeComment (h : c.Written P Q) : c.takeComment.Written P Q :=
  { h with comment := nofun }

theorem Written.withClaim (h : c.Written P Q) (claim : Option (List Claim)) :
    Written P Q { c with claim } :=
  { h with }

theorem Written.withJoinable (h : c.Written P Q) (joinable : Bool) :
    Written P Q { c with joinable } :=
  { h with }

theorem Written.pushWord (h : c.Written P Q) {word : String} (hw : P word) :
    (c.pushWord word).Written P Q :=
  { h.startRun with run := h.startRun.run.push hw _ }

theorem Written.pushMark (h : c.Written P Q) {mark : String} (hm : P mark) :
    (c.pushMark mark).Written P Q := by
  unfold Context.pushMark
  dsimp only
  split
  · exact h.startRun
  · exact { h.startRun with run := h.startRun.run.push hm _ }

theorem Written.pushIfStarted (h : c.Written P Q) {text : String} (ht : P text) (spaced : Bool) :
    (c.pushIfStarted text spaced).Written P Q := by
  unfold Context.pushIfStarted
  split
  · exact h
  · exact { h with run := h.run.push ht _ }

theorem Written.pushFragment (h : c.Written P Q) {text : String} (ht : P text) (spaced : Bool) :
    (c.pushFragment text spaced).Written P Q :=
  h.startRun.pushIfStarted ht spaced

theorem Written.dropHeader (h : c.Written P Q) : c.dropHeader.Written P Q :=
  { h with header := nofun, comment := nofun, runComment := nofun }

theorem Written.settleArgument (h : c.Written P Q) (path : Option Path) :
    (c.settleArgument path).Written P Q :=
  h.withClaim _

/-- A function may hold anything, so the arguments need no look at it. -/
theorem Written.addArgument (h : c.Written P Q)
    (hf : ∀ head, c.header = some head → head.node.kind = .function) :
    c.addArgument.Written P Q := by
  unfold Context.addArgument
  split
  · exact h
  · rename_i head hhead
    split
    · rename_i d hd
      have hargument : (d.toNode .argument).Everywhere (Node.Written P Q) :=
        Declarator.written_toNode .argument (fun _ => trivial) (Declarator.each_type h.run hd)
      refine { h.dropRun with header := ?_ }
      rintro _ ⟨⟩
      refine everywhere_written_of_mem (h.header head hhead) rfl fun a ha => ?_
      rcases List.mem_append.mp ha with ha | ha
      · exact .inl ha
      · rw [List.mem_singleton.mp ha, hf head hhead]
        exact .inr ⟨trivial, hargument⟩
    · exact h.dropRun.withClaim none

theorem Written.endArgument (h : c.Written P Q)
    (hf : ∀ head, c.header = some head → head.node.kind = .function) :
    c.endArgument.Written P Q := by
  unfold Context.endArgument
  split
  · exact h.addArgument hf
  · exact h.dropRun

theorem Written.openParen (h : c.Written P Q) (hl : Lexicon P Q) : c.openParen.Written P Q :=
  { h.pushMark (hl.marks "(" (by simp)) with }

theorem Written.closeParen (h : c.Written P Q) (hl : Lexicon P Q)
    (hf : ∀ head, c.header = some head → head.node.kind = .function) :
    c.closeParen.Written P Q := by
  unfold Context.closeParen
  dsimp only
  split
  · have he := h.endArgument hf
    exact { he with
      header := forall_of_function? (function?_closeArguments c.endArgument) he.header }
  · split
    · exact { h.pushIfStarted (hl.marks ")" (by simp)) false with }
    · exact { h with }

theorem Written.comma (h : c.Written P Q) (hl : Lexicon P Q)
    (hf : ∀ head, c.header = some head → head.node.kind = .function) : c.comma.Written P Q := by
  unfold Context.comma
  split
  · exact { h with }
  · split
    · exact h.endArgument hf
    · exact h.pushIfStarted (hl.marks "," (by simp)) false

theorem Written.equals (h : c.Written P Q) (hl : Lexicon P Q) : c.equals.Written P Q := by
  unfold Context.equals
  split
  · exact { h with }
  · exact h.pushMark (hl.marks "=" (by simp))

theorem Written.afterBody (h : c.Written P Q) : c.afterBody.Written P Q := by
  refine { h with record := nofun, enumeration := fun n hn => ?_ }
  simp only [Context.afterBody] at hn
  split at hn
  · cases hn
  · exact h.enumeration n hn

theorem Written.afterBlock (h : c.Written P Q) : c.afterBlock.Written P Q := by
  unfold Context.afterBlock
  dsimp only
  split
  · exact { h.afterBody with comment := nofun, runComment := nofun }
  · exact { h.afterBody with }

/-- Nodes of the scope move, and nodes that are kept aside stay. -/
theorem Written.afterInsert (h : c.Written P Q) (path : Path) : (c.afterInsert path).Written P Q :=
  { h with
    header := forall_of_function? (function?_afterInsert path c) h.header
    record := Place.forall_aside_afterInsert h.record
    enumeration := Place.forall_aside_afterInsert h.enumeration }

/-- A node that is taken out is kept aside. -/
theorem Written.afterRemove (h : c.Written P Q) (path : Path) {removed : Node}
    (hr : removed.Everywhere (Node.Written P Q)) : (c.afterRemove path removed).Written P Q :=
  { h with
    header := forall_of_function? (function?_afterRemove path removed c) h.header
    record := Place.forall_aside_afterRemove h.record fun _ => hr
    enumeration := Place.forall_aside_afterRemove h.enumeration fun _ => hr }

end Context

/-! ## Scopes -/

namespace OpenScope

/-- What the node of a scope holds, and what its contexts hold on to. -/
structure Written (P Q : String → Prop) (s : OpenScope) : Prop where
  node : s.node.Everywhere (Node.Written P Q)
  contexts : ∀ c ∈ s.context :: s.suspended, c.Written P Q

variable {s t : OpenScope}

theorem Written.context (h : s.Written P Q) : s.context.Written P Q :=
  h.contexts _ (List.mem_cons_self ..)

theorem Written.update (h : s.Written P Q) {f : Context → Context}
    (hf : (f s.context).Written P Q) : (s.update f).Written P Q := by
  refine ⟨h.node, fun c hc => ?_⟩
  rcases List.mem_cons.mp hc with rfl | hc
  · exact hf
  · exact h.contexts c (List.mem_cons_of_mem _ hc)

theorem Written.noteRecorded (h : s.Written P Q) (home : Path) (kind : Kind) (name : String) :
    (s.noteRecorded home kind name).Written P Q := by
  unfold OpenScope.noteRecorded
  dsimp only
  split <;> exact ⟨h.node, h.contexts⟩

theorem Written.mapContexts (h : s.Written P Q) {f : Context → Context}
    (hf : ∀ c : Context, c.Written P Q → (f c).Written P Q) {node : Node}
    (hn : node.Everywhere (Node.Written P Q)) : Written P Q { s.mapContexts f with node } := by
  refine ⟨hn, fun c hc => ?_⟩
  have hc : c ∈ (s.context :: s.suspended).map f := hc
  obtain ⟨d, hd, rfl⟩ := List.mem_map.mp hc
  exact hf d (h.contexts d hd)

theorem Written.removeAt (h : s.Written P Q) (path : Path) : (s.removeAt path).Written P Q := by
  unfold OpenScope.removeAt
  split
  · rename_i removed hr
    exact h.mapContexts (fun c hc => hc.afterRemove path (h.node.get? hr))
      (everywhere_written_removeAt h.node path)
  · exact h

theorem Written.describeAt (h : s.Written P Q) (hl : Lexicon P Q) {raw : String} (hraw : Q raw)
    (path : Path) : (s.modifyAt (·.describe raw) path).Written P Q :=
  ⟨everywhere_written_describeAt h.node (hl.normalized raw hraw) path, h.contexts⟩

theorem Written.describe (h : s.Written P Q) (hl : Lexicon P Q) {raw : String} (hraw : Q raw) :
    (s.describe raw).Written P Q := by
  have hnode := everywhere_written_describe h.node (hl.normalized raw hraw)
  unfold OpenScope.describe
  dsimp only
  split
  · exact ⟨hnode, (h.removeAt _).contexts⟩
  · exact ⟨hnode, h.contexts⟩

/-! ### Recording -/

theorem Written.commitTo (h : s.Written P Q) {home : Path} {node : Node}
    (hhome : ∀ m, s.node.get? home = some m → m.kind.isScope = true)
    (hn : node.Everywhere (Node.Written P Q)) : (s.commitTo home node).1.Written P Q := by
  refine s.commitTo_cases home node (fun _ => ⟨h.node, h.contexts⟩) (fun _ => h) ?_
  intro m ins room _ hm hins hroom
  have hremoved : room.Written P Q := hroom.of_removeAt h fun i => h.removeAt _
  have hinsert : (s.node.modifyAt (fun m => m.withChildren (ins.apply m.children)) home).Everywhere
      (Node.Written P Q) := by
    refine everywhere_written_modifyAt h.node fun m' hm' => ?_
    cases hm.symm.trans hm'
    exact ⟨everywhere_written_insert (h.node.get? hm) (hhome m hm) hn hins, rfl⟩
  refine Written.noteRecorded (hremoved.mapContexts (fun c hc => hc.afterInsert _) ?_) _ _ _
  exact hroom.insertAt.symm ▸ hinsert

theorem Written.commit (h : s.Written P Q) (hs : s.Sound) {node : Node}
    (hn : node.Everywhere (Node.Written P Q)) : (s.commit node).1.Written P Q := by
  refine h.commitTo (fun m (hm : s.node.get? [] = some m) => ?_) hn
  cases hm
  exact hs.scope

theorem Written.commitNamed (h : s.Written P Q) (hs : s.Sound) {node : Node}
    (hn : node.Everywhere (Node.Written P Q)) : (s.commitNamed node).1.Written P Q := by
  unfold OpenScope.commitNamed
  split
  · exact h
  · exact h.commit hs hn

theorem Written.commitClaimed (h : s.Written P Q) (hs : s.Sound) {node : Node}
    (hn : node.Everywhere (Node.Written P Q)) :
    Written P Q ((s.commit node).1.update ({ · with claim := claimOn (s.commit node).2 })) :=
  have hc := h.commit hs hn
  hc.update (hc.context.withClaim _)

theorem Written.commitAside (h : s.Written P Q) {home node : Node} (hs : home.kind.isScope = true)
    (hh : home.Everywhere (Node.Written P Q)) (hn : node.Everywhere (Node.Written P Q)) :
    (s.commitAside home node).1.Written P Q ∧
      (s.commitAside home node).2.2.Everywhere (Node.Written P Q) :=
  ⟨scope_commitAside h (fun _ => ⟨h.node, h.contexts⟩) home node,
    s.aside_commitAside hh fun _ _ hins => everywhere_written_insert hh hs hn hins⟩

theorem Written.commitHeader (h : s.Written P Q) (hs : s.Sound) {head : Header}
    (hh : head.Sound s.node) (hn : head.node.Everywhere (Node.Written P Q)) :
    (s.commitHeader head).Written P Q := by
  have hfinish : ∀ (t : OpenScope) (path : Option Path), t.Written P Q →
      Written P Q (t.update fun c => (c.settleArgument path).dropHeader.dropRun) := fun t path ht =>
    ht.update (ht.context.settleArgument path).dropHeader.dropRun
  unfold OpenScope.commitHeader
  dsimp only
  split
  · exact hfinish _ _ (h.commit hs hn)
  · rename_i i hi
    exact hfinish _ _ (h.commitTo (isScope_at (hh.home _ hi)) hn)
  · -- the node that is kept aside is not kept any longer
    exact hfinish _ _ (scope_commitAside h (fun _ => ⟨h.node, h.contexts⟩) _ _)

theorem written_placeOf {node n : Node} (hn : node.Everywhere (Node.Written P Q)) {path : Option Path}
    (hp : some (placeOf node path) = some (.aside n)) : n.Everywhere (Node.Written P Q) := by
  unfold OpenScope.placeOf at hp
  split at hp
  · cases hp
  · cases hp
    exact hn

/-! ### Claims -/

theorem Written.updateHeader (h : s.Written P Q) {f : Node → Node}
    (hf : ∀ n, n.Everywhere (Node.Written P Q) → (f n).Everywhere (Node.Written P Q)) :
    Written P Q (s.update fun c => { c with header := c.header.map fun head =>
      { head with node := f head.node } }) := by
  refine h.update { h.context with header := fun head hhead => ?_ }
  obtain ⟨before, hbefore, rfl⟩ := Option.map_eq_some_iff.mp hhead
  exact hf _ (h.context.header before hbefore)

theorem Written.updateRecord (h : s.Written P Q) {record : Option Place}
    (hr : ∀ n, record = some (.aside n) → n.Everywhere (Node.Written P Q)) :
    Written P Q (s.update ({ · with record })) :=
  h.update { h.context with record := hr }

theorem Written.updateEnumeration (h : s.Written P Q) {enumeration : Option Place}
    (he : ∀ n, enumeration = some (.aside n) → n.Everywhere (Node.Written P Q)) :
    Written P Q (s.update ({ · with enumeration })) :=
  h.update { h.context with enumeration := he }

theorem Written.describeClaim (h : s.Written P Q) (hl : Lexicon P Q) {raw : String} (hraw : Q raw)
    (claim : Claim) : (s.describeClaim raw claim).Written P Q := by
  have hat : ∀ {n : Node} (path : Path), n.Everywhere (Node.Written P Q) →
      (n.modifyAt (·.describe raw) path).Everywhere (Node.Written P Q) := fun path hn =>
    everywhere_written_describeAt hn (hl.normalized raw hraw) path
  cases claim with
  | recorded path => exact h.describeAt hl hraw path
  | argument =>
    exact h.updateHeader (f := fun n => n.modifyAt (·.describe raw) [n.children.length - 1])
      fun n hn => hat _ hn
  | constant i =>
    simp only [OpenScope.describeClaim]
    split
    · exact h.describeAt hl hraw _
    · rename_i node he
      refine h.updateEnumeration ?_
      rintro _ ⟨⟩
      exact hat [i] (h.context.enumeration node he)
    · exact h

theorem Written.withdrawClaim (h : s.Written P Q) (claim : Claim) :
    (s.withdrawClaim claim).Written P Q := by
  cases claim with
  | recorded path => exact h.removeAt path
  | argument =>
    exact h.updateHeader (f := fun n => n.removeAt [n.children.length - 1])
      fun n hn => everywhere_written_removeAt hn _
  | constant i =>
    simp only [OpenScope.withdrawClaim]
    split
    · exact h.removeAt _
    · rename_i node he
      refine h.updateEnumeration ?_
      rintro _ ⟨⟩
      exact everywhere_written_removeAt (h.context.enumeration node he) [i]
    · exact h

theorem Written.withdrawFirst (count : Nat) (h : s.Written P Q) :
    (withdrawFirst count s).Written P Q := by
  induction count generalizing s with
  | zero => exact h
  | succ count ih =>
    unfold OpenScope.withdrawFirst
    split
    · exact ih ((h.update (h.context.withClaim _)).withdrawClaim _)
    · exact h

theorem Written.describeClaims (h : s.Written P Q) (hl : Lexicon P Q) {raw : String} (hraw : Q raw)
    (claims : List Claim) : (claims.foldl (OpenScope.describeClaim raw) s).Written P Q := by
  induction claims generalizing s with
  | nil => exact h
  | cons claim claims ih => exact ih (h.describeClaim hl hraw claim)

theorem Written.settleClaims (h : s.Written P Q) (hl : Lexicon P Q) {raw : String} (hraw : Q raw)
    (claims : List Claim) : (s.settleClaims raw claims).Written P Q := by
  have hforget : ∀ t : OpenScope, t.Written P Q →
      Written P Q (t.update ({ · with claim := none, joinable := false })) := fun t ht =>
    ht.update { ht.context with }
  unfold OpenScope.settleClaims
  dsimp only
  split
  · exact hforget _ (h.withdrawFirst _)
  · exact hforget _ (h.describeClaims hl hraw claims)

theorem Written.takeComment (h : s.Written P Q) (hl : Lexicon P Q) {text : String} (ht : Q text)
    (line : Bool) : (s.takeComment text line).Written P Q := by
  unfold OpenScope.takeComment
  dsimp only
  split
  · exact h
  · split
    · exact h.settleClaims hl ht _
    · split
      · split <;> exact ⟨(h.describe hl ht).node, (h.describe hl ht).contexts⟩
      · split
        · refine h.update { h.context with runComment := ?_ }
          rintro _ ⟨⟩
          exact ht
        · refine h.update { h.context with comment := ?_ }
          rintro _ ⟨⟩
          split
          · rename_i before hbefore
            split
            · exact hl.joined before text (h.context.comment before hbefore) ht
            · exact ht
          · exact ht

/-! ### Functions -/

theorem Written.startFunction (h : s.Written P Q) (hl : Lexicon P Q) (word : String) :
    (s.startFunction word).Written P Q := by
  unfold OpenScope.startFunction
  dsimp only
  split
  · exact h.update h.context.dropRun
  · refine h.update { h.context.takeComment.dropRun with header := ?_ }
    rintro _ ⟨⟩
    refine hl.describeWith h.context.comment (written_of_kind (fun _ => trivial) fun c hc => ?_)
    exact written_resultOf? hl h.context.run h.context.runComment c (Option.mem_toList.mp hc)

/-! ### Variables and names for types -/

theorem Written.declareVariable (h : s.Written P Q) (hs : s.Sound) (hl : Lexicon P Q)
    (terminator : Char) : (s.declareVariable terminator).Written P Q := by
  unfold OpenScope.declareVariable
  split
  · exact h.update h.context.dropRun
  · rename_i d hd
    have htype := Declarator.each_type h.context.run hd
    have hbase : Run.Each P (if terminator == ',' then d.type.takeWhile (·.isWord) else []) := by
      split
      · exact htype.subset (List.takeWhile_sublist _).subset
      · exact .nil
    have hu := h.update (f := fun c => { c.dropRun.takeComment with
      base := if terminator == ',' then d.type.takeWhile (·.isWord) else [] })
      { h.context.dropRun.takeComment with base := hbase }
    have hsu := hs.update_refs (f := fun c => { c.dropRun.takeComment with
      base := if terminator == ',' then d.type.takeWhile (·.isWord) else [] }) rfl
    refine hu.commitClaimed hsu.sound (hl.describeIf h.context.comment ?_)
    exact everywhere_written_congr (Declarator.written_toNode .var (fun _ => trivial) htype) rfl rfl

theorem Written.declareAlias (h : s.Written P Q) (hs : s.Sound) (hl : Lexicon P Q) (name : String)
    {type : Run} (ht : type.Each P) : (s.declareAlias name type).Written P Q := by
  unfold OpenScope.declareAlias
  have hu := h.update (f := fun c => { c.takeComment with run := [] })
    { h.context.takeComment with run := .nil }
  have hsu := hs.update_refs (f := fun c => { c.takeComment with run := [] }) rfl
  refine hu.commitClaimed hsu.sound (hl.describeIf h.context.comment ?_)
  refine written_of_kind (fun _ => trivial) fun c hc => ?_
  rw [List.mem_singleton.mp hc]
  exact ht.closeUp.toType

theorem Written.finishAlias (h : s.Written P Q) (hs : s.Sound) (hl : Lexicon P Q) :
    s.finishAlias.Written P Q := by
  unfold OpenScope.finishAlias
  dsimp only
  split
  · refine h.declareAlias hs hl _ (h.context.run.subset ?_)
    exact ((List.drop_sublist _ _).trans (List.eraseIdx_sublist _ _)).subset
  · exact h

/-! ### Declarators after a definition -/

/-- A node without a name is given one and recorded. -/
theorem Written.nameAside (h : s.Written P Q) (hs : s.Sound) (name : String) {place : Option Place}
    (hp : ∀ n, place = some (.aside n) → n.Everywhere (Node.Written P Q)) :
    (s.nameAside name place).1.Written P Q ∧
      ∀ n, (s.nameAside name place).2 = some (.aside n) → n.Everywhere (Node.Written P Q) := by
  unfold OpenScope.nameAside
  split
  · rename_i node
    split
    · have hnode : (node.withName name).Everywhere (Node.Written P Q) :=
        everywhere_written_congr (hp node rfl) rfl rfl
      exact ⟨h.commit hs hnode, fun n hn => written_placeOf hnode hn⟩
    · exact ⟨h, hp⟩
  · exact ⟨h, hp⟩

theorem Written.declareAwaited (h : s.Written P Q) (hs : s.Sound) (name : String) :
    (s.declareAwaited name).Written P Q := by
  unfold OpenScope.declareAwaited
  split
  · rename_i node hnode
    have hkind := (hs.context.typeAlias node hnode).1
    refine h.commitClaimed hs (written_of_kind (fun _ => ?_) fun c hc => ?_)
    · change MayHold P Q node.kind _
      rw [hkind]
      trivial
    · rcases List.mem_cons.mp hc with rfl | hc
      · exact h.context.run.closeUp.toType
      · exact (h.context.typeAlias node hnode).child hc
  · exact h.update (h.context.withClaim none)

/-- The end of a declarator after a definition: only claims are left of what was referred to. -/
theorem Written.endDefinition (h : s.Written P Q) (aliased : Bool) :
    Written P Q (s.update (·.afterDefinition aliased)) :=
  h.update { h.context with run := .nil, record := nofun, enumeration := nofun, typeAlias := nofun }

theorem Written.declareDefined (h : s.Written P Q) (hs : s.Sound) (name : String) :
    (s.declareDefined name).Written P Q := by
  have hfirst := h.declareAwaited hs name
  have hsfirst := (hs.declareAwaited name).sound
  obtain ⟨hrecord, hrplace⟩ := hfirst.nameAside hsfirst name hfirst.context.record
  obtain ⟨hsrecord, hsrplace⟩ := hsfirst.nameAside name hsfirst.context.record
  have hr := hrecord.updateRecord hrplace
  have hsr := (hsrecord.sound.updateRecord hsrplace).sound
  obtain ⟨henum, heplace⟩ := hr.nameAside hsr name hr.context.enumeration
  exact (henum.updateEnumeration heplace).endDefinition s.context.typeAlias.isSome

theorem Written.endDeclarator (h : s.Written P Q) (hs : s.Sound) (hl : Lexicon P Q) {word : String}
    (hw : P word) (terminator : Char) : (s.endDeclarator word terminator).Written P Q := by
  unfold OpenScope.endDeclarator
  dsimp only
  split
  · exact h.declareDefined hs word
  · split
    · exact h.declareAlias hs hl _ (h.context.run.subset (List.drop_sublist _ _).subset)
    · have hpushed := h.update (f := (·.pushWord word)) (h.context.pushWord hw)
      have hspushed := hs.update_refs (f := (·.pushWord word)) (Context.refs_pushWord _ word)
      split
      · split
        · exact h.update h.context.dropRun
        · exact hpushed.declareVariable hspushed.sound hl terminator
      · exact hpushed

/-! ### Words -/

theorem Written.declareConstant (h : s.Written P Q) (hs : s.Sound) (hl : Lexicon P Q)
    (word : String) : (s.declareConstant word).Written P Q := by
  have hnode : ((ofName .constant word).describeIf s.context.comment).Everywhere
      (Node.Written P Q) :=
    hl.describeIf h.context.comment (written_of_kind (fun _ => trivial) (by simp [ofName]))
  have ht := h.update (f := .takeComment) h.context.takeComment
  have hst := (hs.update_refs (f := .takeComment) (Context.refs_takeComment _)).sound
  unfold OpenScope.declareConstant
  dsimp only
  split
  · rename_i e he
    have hc := ht.commitTo (isScope_at (hst.context.enumeration _ he)) hnode
    split
    · rename_i t path hcommit
      rw [hcommit] at hc
      exact hc.update (hc.context.withClaim _)
    · rename_i t hcommit
      rw [hcommit] at hc
      exact hc
  · rename_i home he
    obtain ⟨n, hn, hscope, -⟩ := hst.context.enumeration _ he
    cases hn
    obtain ⟨hc, hhome⟩ := ht.commitAside hscope (ht.context.enumeration home he) hnode
    split
    · rename_i t i home' hcommit
      rw [hcommit] at hc hhome
      refine hc.update { hc.context with enumeration := ?_ }
      rintro _ ⟨⟩
      exact hhome
    · rename_i t home' hcommit
      rw [hcommit] at hc
      exact hc
  · exact ht

theorem function_header (hs : s.Sound) :
    ∀ head, s.context.header = some head → head.node.kind = .function :=
  fun head hhead => (hs.context.header head hhead).function

theorem Written.declarationWord (h : s.Written P Q) (hs : s.Sound) (hl : Lexicon P Q)
    {word : String} (hw : P word) (terminator : Char) :
    (s.declarationWord word terminator).Written P Q := by
  unfold OpenScope.declarationWord
  dsimp only
  split
  · exact h.update { h.context with }
  · have hstart := h.update (f := .startRun) h.context.startRun
    have hsstart := (hs.update_refs (f := .startRun) (Context.refs_startRun _)).sound
    split
    · exact hstart.startFunction hl word
    · split
      · split
        · exact hstart.update hstart.context.dropRun
        · have hheader := congrArg Prod.fst (Context.refs_pushWord s.context.startRun word)
          exact hstart.update ((hstart.context.pushWord hw).addArgument fun head hhead =>
            function_header hsstart head (hheader.symm.trans hhead))
      · split
        · exact hstart.endDeclarator hsstart hl hw terminator
        · exact hstart.update (hstart.context.pushWord hw)

theorem Written.word (h : s.Written P Q) (hs : s.Sound) (hl : Lexicon P Q) {word : String}
    (hw : P word) (terminator : Char) : (s.word word terminator).Written P Q := by
  unfold OpenScope.word
  dsimp only
  split
  · exact h.declarationWord hs hl hw terminator
  · split
    · split
      · exact h.declareConstant hs hl word
      · exact h
    · exact h.update h.context.dropRun

/-! ### Semicolons -/

theorem Written.endHeader (h : s.Written P Q) (hs : s.Sound) : s.endHeader.Written P Q := by
  unfold OpenScope.endHeader
  split
  · rename_i head hhead
    split
    · exact h.commitHeader hs (hs.context.header head hhead) (h.context.header head hhead)
    · exact h.update h.context.dropHeader
  · exact h

theorem Written.endRun (h : s.Written P Q) (hs : s.Sound) (hl : Lexicon P Q) :
    s.endRun.Written P Q := by
  unfold OpenScope.endRun
  split
  · exact h.finishAlias hs hl
  · split
    · exact h.declareVariable hs hl ';'
    · exact h

theorem Written.semicolon (h : s.Written P Q) (hs : s.Sound) (hl : Lexicon P Q) :
    s.semicolon.Written P Q := by
  have hrun := (h.endHeader hs).endRun hs.endHeader.sound hl
  unfold OpenScope.semicolon
  refine hrun.update ?_
  dsimp only
  split
  · exact { hrun.context.dropRun with
      record := nofun, base := .nil, typeAlias := nofun, enumeration := nofun }
  · exact { hrun.context.dropRun with record := nofun, base := .nil }

end OpenScope

end HeaderDocs.Scan
