import HeaderDocs.Proofs.Scan.Arrangement

/-!
# Brackets that contexts count

A context counts the braces that are open in it and whose contents are not recorded, and its open
parentheses. Whatever is declared or described, the counts stay, and so does the access of what is
declared outside of records (`OpenScope.skeleton`).

* `State.step_of_code`: what a character of the code does besides being a mark counts nothing.
* `State.sameBrackets_step`: nor does a character of a comment, a literal or a directive.
-/
namespace HeaderDocs.Scan

open HeaderDocs.Node

/-! ## Contexts -/

namespace Context

/-- The braces and the parentheses that a context counts. -/
def brackets (c : Context) : Nat × Nat := (c.braces, c.parens)

/-- What a context counts, and the access of the members it declares. -/
def skeleton (c : Context) : (Nat × Nat) × Option String := (c.brackets, c.access)

variable (c : Context)

@[simp] theorem skeleton_endLine : c.endLine.skeleton = c.skeleton := rfl

@[simp] theorem skeleton_settleArgument (path : Option Path) :
    (c.settleArgument path).skeleton = c.skeleton := rfl

@[simp] theorem skeleton_afterInsert (path : Path) : (c.afterInsert path).skeleton = c.skeleton := rfl

@[simp] theorem skeleton_afterRemove (path : Path) (removed : Node) :
    (c.afterRemove path removed).skeleton = c.skeleton := rfl

@[simp] theorem skeleton_startRun : c.startRun.skeleton = c.skeleton := by
  unfold startRun
  split <;> rfl

@[simp] theorem skeleton_pushWord (word : String) : (c.pushWord word).skeleton = c.skeleton :=
  c.skeleton_startRun

@[simp] theorem skeleton_pushMark (mark : String) : (c.pushMark mark).skeleton = c.skeleton := by
  unfold pushMark
  dsimp only
  split <;> exact c.skeleton_startRun

@[simp] theorem skeleton_pushIfStarted (text : String) (spaced : Bool) :
    (c.pushIfStarted text spaced).skeleton = c.skeleton := by
  unfold pushIfStarted
  split <;> rfl

@[simp] theorem skeleton_pushFragment (text : String) (spaced : Bool) :
    (c.pushFragment text spaced).skeleton = c.skeleton := by
  rw [pushFragment, skeleton_pushIfStarted, skeleton_startRun]

@[simp] theorem skeleton_addArgument : c.addArgument.skeleton = c.skeleton := by
  unfold addArgument
  split
  · rfl
  · split <;> rfl

@[simp] theorem skeleton_endArgument : c.endArgument.skeleton = c.skeleton := by
  unfold endArgument
  split
  · exact c.skeleton_addArgument
  · rfl

@[simp] theorem skeleton_comma : c.comma.skeleton = c.skeleton := by
  unfold comma
  split
  · rfl
  · split <;> simp

@[simp] theorem skeleton_equals : c.equals.skeleton = c.skeleton := by
  unfold equals
  split
  · rfl
  · exact c.skeleton_pushMark "="

/-! Brackets change what is counted. -/

theorem skeleton_openParen : c.openParen.skeleton = ((c.braces, c.parens + 1), c.access) :=
  congrArg (fun x : (Nat × Nat) × Option String => ((x.1.1, x.1.2 + 1), x.2)) (c.skeleton_pushMark "(")

theorem skeleton_closeParen : c.closeParen.skeleton = ((c.braces, c.parens - 1), c.access) := by
  have hsame : ∀ {d : Context}, d.skeleton = c.skeleton →
      Context.skeleton { d with parens := d.parens - 1 } = ((c.braces, c.parens - 1), c.access) :=
    congrArg fun x : (Nat × Nat) × Option String => ((x.1.1, x.1.2 - 1), x.2)
  unfold closeParen
  dsimp only
  split
  · exact hsame (d := { c.endArgument with header := _ }) c.skeleton_endArgument
  · split
    · exact hsame (c.skeleton_pushIfStarted ")" false)
    · exact hsame rfl

theorem skeleton_afterBlock : c.afterBlock.skeleton = ((c.braces - 1, c.parens), c.access) := by
  unfold afterBlock
  dsimp only
  split <;> rfl

theorem brackets_openParen : c.openParen.brackets = (c.braces, c.parens + 1) :=
  congrArg Prod.fst c.skeleton_openParen

theorem brackets_closeParen : c.closeParen.brackets = (c.braces, c.parens - 1) :=
  congrArg Prod.fst c.skeleton_closeParen

theorem brackets_afterBlock : c.afterBlock.brackets = (c.braces - 1, c.parens) :=
  congrArg Prod.fst c.skeleton_afterBlock

end Context

/-! ## Scopes -/

namespace OpenScope

/-- The brackets that the contexts of a scope count, innermost first. -/
def brackets (s : OpenScope) : List (Nat × Nat) := (s.context :: s.suspended).map (·.brackets)

/-- What a scope is the body of, and what its contexts count. In a record, where it changes, the access
of the members is left out. -/
def skeleton (s : OpenScope) : Origin × Kind × List ((Nat × Nat) × Option String) :=
  (s.origin, s.node.kind, (s.context :: s.suspended).map fun c =>
    (c.brackets, if s.node.kind.isRecord then none else c.access))

variable (s : OpenScope)

theorem brackets_of_skeleton {t : OpenScope} (h : t.skeleton = s.skeleton) : t.brackets = s.brackets := by
  have hcontexts := congrArg (fun x => x.2.2.map Prod.fst) h
  simp only [skeleton, List.map_map, Function.comp_def] at hcontexts
  exact hcontexts

/-! Declarations and comments count nothing. -/

theorem skeleton_update {f : Context → Context} (h : (f s.context).skeleton = s.context.skeleton) :
    (s.update f).skeleton = s.skeleton := by
  obtain ⟨hbrackets, haccess⟩ := Prod.mk.inj h
  simp only [skeleton, update, List.map_cons, hbrackets, haccess]
  rfl

theorem skeleton_updateAccess (h : s.node.kind.isRecord = true) (access : Option String) :
    (s.update ({ · with access })).skeleton = s.skeleton := by
  simp [skeleton, update, h, Context.brackets]

@[simp] theorem skeleton_noteRecorded (home : Path) (kind : Kind) (name : String) :
    (s.noteRecorded home kind name).skeleton = s.skeleton := by
  unfold noteRecorded
  dsimp only
  split <;> rfl

theorem skeleton_change {f : Context → Context} (h : ∀ c, (f c).skeleton = c.skeleton) {node : Node}
    (hk : node.kind = s.node.kind) : skeleton { s.mapContexts f with node } = s.skeleton := by
  have hbrackets := fun c => congrArg Prod.fst (h c)
  have haccess := fun c => congrArg Prod.snd (h c)
  simp only [Context.skeleton] at hbrackets haccess
  simp [skeleton, mapContexts, hk, hbrackets, haccess]

theorem skeleton_withNode {node : Node} (hk : node.kind = s.node.kind) :
    skeleton { s with node } = s.skeleton := by
  simp [skeleton, hk]

@[simp] theorem skeleton_insertAt (path : Path) (new : Node) :
    (s.insertAt path new).skeleton = s.skeleton :=
  s.skeleton_change (·.skeleton_afterInsert path) (kind_eq_of_key (key_insertAt s.node new path))

@[simp] theorem skeleton_removeAt (path : Path) : (s.removeAt path).skeleton = s.skeleton := by
  unfold removeAt
  split
  · exact s.skeleton_change (·.skeleton_afterRemove path _) (kind_eq_of_key (key_removeAt s.node path))
  · rfl

theorem skeleton_describeAt (raw : String) (path : Path) :
    (s.modifyAt (·.describe raw) path).skeleton = s.skeleton :=
  s.skeleton_withNode (kind_eq_of_key (key_modifyAt (key_describe · raw) s.node path))

@[simp] theorem skeleton_describe (raw : String) : (s.describe raw).skeleton = s.skeleton := by
  have hkind : (s.node.describe raw).kind = s.node.kind := kind_describe _ _
  unfold describe
  dsimp only
  split
  · rename_i i _
    have hremoved : (s.removeAt [i]).node.kind = s.node.kind := by
      rw [node_removeAt]
      exact kind_eq_of_key (key_removeAt s.node [i])
    exact ((s.removeAt [i]).skeleton_withNode (hkind.trans hremoved.symm)).trans (s.skeleton_removeAt [i])
  · exact s.skeleton_withNode hkind

@[simp] theorem skeleton_commitTo (home : Path) (node : Node) :
    (s.commitTo home node).1.skeleton = s.skeleton := by
  refine s.commitTo_cases home node (fun _ => rfl) (fun _ => rfl) fun _ _ room _ _ _ hroom => ?_
  have hremoved : room.skeleton = s.skeleton :=
    hroom.of_removeAt (P := (·.skeleton = s.skeleton)) rfl fun i => s.skeleton_removeAt _
  rw [skeleton_noteRecorded, skeleton_insertAt, hremoved]

@[simp] theorem skeleton_commit (node : Node) : (s.commit node).1.skeleton = s.skeleton :=
  s.skeleton_commitTo [] node

@[simp] theorem skeleton_commitNamed (node : Node) :
    (s.commitNamed node).1.skeleton = s.skeleton := by
  unfold commitNamed
  split
  · rfl
  · exact s.skeleton_commit node

@[simp] theorem skeleton_commitAside (home node : Node) :
    (s.commitAside home node).1.skeleton = s.skeleton :=
  scope_commitAside (P := (·.skeleton = s.skeleton)) rfl (fun _ => rfl) home node

@[simp] theorem skeleton_commitHeader (h : Header) :
    (s.commitHeader h).skeleton = s.skeleton := by
  have hsettle : ∀ (t : OpenScope) (path : Option Path),
      (t.update fun c => (c.settleArgument path).dropHeader.dropRun).skeleton = t.skeleton :=
    fun t path => t.skeleton_update (Context.skeleton_settleArgument _ path)
  unfold commitHeader
  refine (hsettle _ _).trans ?_
  split
  · exact s.skeleton_commit h.node
  · exact s.skeleton_commitTo _ h.node
  · exact s.skeleton_commitAside _ h.node

theorem skeleton_describeClaim (raw : String) (claim : Claim) :
    (s.describeClaim raw claim).skeleton = s.skeleton := by
  cases claim with
  | recorded path => exact s.skeleton_describeAt raw path
  | argument => exact s.skeleton_update rfl
  | constant i =>
    simp only [describeClaim]
    split
    · exact s.skeleton_describeAt raw _
    · exact s.skeleton_update rfl
    · rfl

theorem skeleton_withdrawClaim (claim : Claim) :
    (s.withdrawClaim claim).skeleton = s.skeleton := by
  cases claim with
  | recorded path => exact s.skeleton_removeAt path
  | argument => exact s.skeleton_update rfl
  | constant i =>
    simp only [withdrawClaim]
    split
    · exact s.skeleton_removeAt _
    · exact s.skeleton_update rfl
    · rfl

theorem skeleton_withdrawFirst (count : Nat) :
    (withdrawFirst count s).skeleton = s.skeleton := by
  induction count generalizing s with
  | zero => rfl
  | succ count ih =>
    unfold withdrawFirst
    split
    · exact (ih _).trans ((skeleton_withdrawClaim _ _).trans (s.skeleton_update rfl))
    · rfl

theorem skeleton_describeClaims (raw : String) (claims : List Claim) :
    (claims.foldl (describeClaim raw) s).skeleton = s.skeleton := by
  induction claims generalizing s with
  | nil => rfl
  | cons claim claims ih => exact (ih _).trans (s.skeleton_describeClaim raw claim)

theorem skeleton_settleClaims (raw : String) (claims : List Claim) :
    (s.settleClaims raw claims).skeleton = s.skeleton := by
  unfold settleClaims
  dsimp only
  split
  · exact (skeleton_update _ rfl).trans (s.skeleton_withdrawFirst _)
  · exact (skeleton_update _ rfl).trans (s.skeleton_describeClaims raw claims)

@[simp] theorem skeleton_takeComment (text : String) (line : Bool) :
    (s.takeComment text line).skeleton = s.skeleton := by
  unfold takeComment
  dsimp only
  split
  · rfl
  · split
    · exact s.skeleton_settleClaims text _
    · split
      · split <;> exact s.skeleton_describe text
      · split <;> exact s.skeleton_update rfl

theorem skeleton_startFunction (word : String) :
    (s.startFunction word).skeleton = s.skeleton := by
  unfold startFunction
  dsimp only
  split <;> exact s.skeleton_update rfl

theorem skeleton_declareVariable (terminator : Char) :
    (s.declareVariable terminator).skeleton = s.skeleton := by
  unfold declareVariable
  split
  · exact s.skeleton_update rfl
  · refine (skeleton_update _ rfl).trans ((skeleton_commit _ _).trans (s.skeleton_update rfl))

theorem skeleton_declareAlias (name : String) (type : Run) :
    (s.declareAlias name type).skeleton = s.skeleton := by
  unfold declareAlias
  exact (skeleton_update _ rfl).trans ((skeleton_commit _ _).trans (s.skeleton_update rfl))

theorem skeleton_finishAlias : s.finishAlias.skeleton = s.skeleton := by
  unfold finishAlias
  dsimp only
  split
  · exact s.skeleton_declareAlias _ _
  · rfl

theorem skeleton_nameAside (name : String) (place : Option Place) :
    (s.nameAside name place).1.skeleton = s.skeleton := by
  unfold nameAside
  split
  · split
    · exact s.skeleton_commit _
    · rfl
  · rfl

theorem skeleton_declareAwaited (name : String) :
    (s.declareAwaited name).skeleton = s.skeleton := by
  unfold declareAwaited
  split
  · exact (skeleton_update _ rfl).trans (s.skeleton_commit _)
  · exact s.skeleton_update rfl

theorem skeleton_declareDefined (name : String) :
    (s.declareDefined name).skeleton = s.skeleton := by
  unfold declareDefined
  dsimp only
  refine (skeleton_update _ rfl).trans ((skeleton_update _ rfl).trans ?_)
  refine (skeleton_nameAside _ name _).trans ((skeleton_update _ rfl).trans ?_)
  exact (skeleton_nameAside _ name _).trans (s.skeleton_declareAwaited name)

theorem skeleton_endDeclarator (word : String) (terminator : Char) :
    (s.endDeclarator word terminator).skeleton = s.skeleton := by
  have hword : (s.update (·.pushWord word)).skeleton = s.skeleton :=
    s.skeleton_update (Context.skeleton_pushWord _ _)
  unfold endDeclarator
  dsimp only
  split
  · exact s.skeleton_declareDefined word
  · split
    · exact s.skeleton_declareAlias _ _
    · split
      · split
        · exact s.skeleton_update rfl
        · exact (skeleton_declareVariable _ terminator).trans hword
      · exact hword

theorem skeleton_declareConstant (word : String) :
    (s.declareConstant word).skeleton = s.skeleton := by
  have htake : (s.update .takeComment).skeleton = s.skeleton := s.skeleton_update rfl
  unfold declareConstant
  dsimp only
  split
  · split
    · rename_i t path hcommit
      have ht := congrArg (·.1.skeleton) hcommit
      have hcommitted := ht.symm.trans ((skeleton_commitTo _ _ _).trans htake)
      exact (skeleton_update _ rfl).trans hcommitted
    · rename_i t hcommit
      have ht := congrArg (·.1.skeleton) hcommit
      exact ht.symm.trans ((skeleton_commitTo _ _ _).trans htake)
  · split
    · rename_i t i home hcommit
      have ht := congrArg (·.1.skeleton) hcommit
      have hcommitted := ht.symm.trans ((skeleton_commitAside _ _ _).trans htake)
      exact (skeleton_update _ rfl).trans hcommitted
    · rename_i t home hcommit
      have ht := congrArg (·.1.skeleton) hcommit
      exact ht.symm.trans ((skeleton_commitAside _ _ _).trans htake)
  · exact htake

theorem skeleton_declarationWord (word : String) (terminator : Char) :
    (s.declarationWord word terminator).skeleton = s.skeleton := by
  have hstart : (s.update .startRun).skeleton = s.skeleton :=
    s.skeleton_update (Context.skeleton_startRun _)
  unfold declarationWord
  dsimp only
  split
  · rename_i hrecord
    simp only [Bool.and_eq_true] at hrecord
    exact s.skeleton_updateAccess hrecord.1.2 _
  · split
    · exact (skeleton_startFunction _ word).trans hstart
    · split
      · split
        · exact (skeleton_update _ rfl).trans hstart
        · exact (skeleton_update _ (by simp)).trans hstart
      · split
        · exact (skeleton_endDeclarator _ word terminator).trans hstart
        · exact (skeleton_update _ (by simp)).trans hstart

@[simp] theorem skeleton_word (word : String) (terminator : Char) :
    (s.word word terminator).skeleton = s.skeleton := by
  unfold OpenScope.word
  dsimp only
  split
  · exact s.skeleton_declarationWord word terminator
  · split
    · split
      · exact s.skeleton_declareConstant word
      · rfl
    · exact s.skeleton_update rfl

@[simp] theorem skeleton_semicolon : s.semicolon.skeleton = s.skeleton := by
  have hheader : s.endHeader.skeleton = s.skeleton := by
    unfold endHeader
    split
    · split
      · exact s.skeleton_commitHeader _
      · exact s.skeleton_update rfl
    · rfl
  have hrun : s.endHeader.endRun.skeleton = s.skeleton := by
    unfold endRun
    split
    · exact (skeleton_finishAlias _).trans hheader
    · split
      · exact (skeleton_declareVariable _ ';').trans hheader
      · exact hheader
  unfold semicolon
  refine (skeleton_update _ ?_).trans hrun
  dsimp only
  split <;> rfl

end OpenScope

/-! ## States -/

namespace State

variable {s t u : State}

/-- The open contexts and what they count are the same. -/
structure SameBrackets (s t : State) : Prop where
  scope : t.scope.skeleton = s.scope.skeleton
  enclosing : t.enclosing = s.enclosing

theorem SameBrackets.refl : SameBrackets s s := ⟨rfl, rfl⟩

theorem SameBrackets.trans (h : SameBrackets s t) (h' : SameBrackets t u) : SameBrackets s u :=
  ⟨h'.scope.trans h.scope, h'.enclosing.trans h.enclosing⟩

theorem sameBrackets_enter (s : State) (mode : Mode) : SameBrackets s (s.enter mode) := ⟨rfl, rfl⟩

theorem sameBrackets_update {f : OpenScope → OpenScope}
    (h : (f s.scope).skeleton = s.scope.skeleton) :
    SameBrackets s (s.update f) := ⟨h, rfl⟩

theorem sameBrackets_updateContext {f : Context → Context}
    (h : (f s.scope.context).skeleton = s.scope.context.skeleton) :
    SameBrackets s (s.update (·.update f)) := sameBrackets_update (s.scope.skeleton_update h)

theorem sameBrackets_endComment (s : State) (text : List Char) (line : Bool) :
    SameBrackets s (s.endComment text line) :=
  ⟨s.scope.skeleton_takeComment (String.ofList text) line, rfl⟩

/-! ### Braces whose contents are recorded -/

theorem skeleton_openEnumeration (aliased : Bool) (run : Run) (scope : OpenScope) :
    (openEnumeration aliased run scope).skeleton = scope.skeleton := by
  unfold openEnumeration
  refine (OpenScope.skeleton_update _ rfl).trans
    ((OpenScope.skeleton_commitNamed _ _).trans ?_)
  refine scope.skeleton_update ?_
  dsimp only
  split <;> rfl

theorem skeleton_beginRecord (kind : Kind) (aliased : Bool) (run : Run) (scope : OpenScope) :
    (beginRecord kind aliased run scope).1.skeleton = scope.skeleton := by
  unfold beginRecord
  refine (OpenScope.skeleton_update _ rfl).trans
    ((OpenScope.skeleton_commitNamed _ _).trans ?_)
  refine scope.skeleton_update ?_
  dsimp only
  split <;> rfl

theorem skeleton_beginNameSpace (name : String) (scope : OpenScope) :
    (beginNameSpace name scope).1.skeleton = scope.skeleton := by
  unfold beginNameSpace
  extract_lets comment updated node
  have hupdate : updated.skeleton = scope.skeleton := scope.skeleton_update rfl
  split
  · exact hupdate
  · have hcommit := (updated.skeleton_commit node).trans hupdate
    generalize updated.commit node = recorded at hcommit
    exact hcommit

theorem skeleton_putBack (inner outer : OpenScope) :
    (putBack inner outer).skeleton = outer.skeleton := by
  unfold putBack
  dsimp only
  split
  · rfl
  · split
    · split
      · rfl
      · exact OpenScope.skeleton_removeAt _ _
    · exact OpenScope.skeleton_update _ rfl
    · rfl
  · rfl
  · rfl

/-! ### Characters -/

def isBracket (c : Char) : Bool := c == '\x7b' || c == '\x7d' || c == '(' || c == ')'

theorem isBracket_of_class {p : Char → Bool}
    (hp : ['\x7b', '\x7d', '(', ')'].all (!p ·) = true) {c : Char} (hc : p c = true) :
    isBracket c = false := by
  simpa [isBracket, not_or, and_assoc] using notMem_of_class hp hc

theorem sameBrackets_mark (s : State) {c : Char} (hc : isBracket c = false) :
    SameBrackets s (s.mark c) := by
  have hupdate : ∀ {f : Context → Context}, (∀ d, (f d).skeleton = d.skeleton) →
      SameBrackets s (s.update (·.update f)) := fun hf => sameBrackets_updateContext (hf _)
  refine mark_cases c ?begins ?openBrace ?closeBrace ?openParen ?closeParen ?semicolon ?comma
    ?equals ?sign ?ampersand ?colon ?other
  case begins => exact fun mode _ => s.sameBrackets_enter mode
  case openBrace | closeBrace | openParen | closeParen =>
    rintro rfl
    exact absurd hc (by decide)
  case semicolon => exact fun _ => sameBrackets_update s.scope.skeleton_semicolon
  case comma => exact fun _ => hupdate fun d => d.skeleton_comma
  case equals => exact fun _ => hupdate fun d => d.skeleton_equals
  case sign => exact fun _ => hupdate fun d => d.skeleton_pushMark _
  case ampersand => exact fun _ => hupdate fun d => d.skeleton_pushFragment _ _
  case colon => exact fun _ => hupdate fun d => d.skeleton_pushIfStarted _ _
  case other => exact fun _ _ => .refl

/-- What a character of the code does: it is a mark, after something that counts no brackets; or it
is none, and counts nothing. -/
inductive ReadsMark (c : Char) (s t : State) : Prop
  | mark {u : State} (before : SameBrackets s u) (after : t = u.mark c)
  | other (bracket : isBracket c = false) (same : SameBrackets s t)

theorem readsMark_plain (h : SameBrackets s u) (c : Char) : ReadsMark c s (u.plain c) := by
  refine plain_cases c ?newline ?space ?slash ?mark
  case newline =>
    rintro rfl
    exact .other (by decide) (h.trans (sameBrackets_updateContext rfl))
  case space => exact fun hc => .other (isBracket_of_class (by decide) hc) h
  case slash =>
    rintro rfl
    exact .other (by decide) (h.trans ⟨rfl, rfl⟩)
  case mark => exact fun _ _ => .mark (h.trans (sameBrackets_updateContext rfl)) rfl

/-- A character of the code, after a slash or a word that it ends. -/
theorem step_of_code {c : Char} (h : (s.mode.layer).isCode c = true) : ReadsMark c s (s.step c) := by
  obtain ⟨a, ha, hstep⟩ := s.step_acts c
  rw [ha.isCode] at h
  rw [hstep]
  cases a with
  | turn mode =>
    cases ha with
    | part _ hc =>
      refine .other (isBracket_of_class (p := isWordPart s.scope.context.parens) ?_ hc)
        (s.sameBrackets_enter _)
      simp [isWordPart]
      decide
    | outside _ hnext => exact absurd (eq_of_beq h) hnext.layer_ne
  | code => exact readsMark_plain .refl c
  | slash =>
    refine readsMark_plain (SameBrackets.trans (s.sameBrackets_enter .plain) ?_) c
    exact sameBrackets_updateContext (Context.skeleton_pushMark _ _)
  | word text =>
    refine readsMark_plain (SameBrackets.trans (s.sameBrackets_enter .plain) ?_) c
    exact sameBrackets_update (OpenScope.skeleton_word _ _ c)
  | blockComment text | lineComment text | directive | literal text => cases h

/-- A character that is not part of the code changes no skeleton. -/
theorem sameBrackets_step {c : Char} (h : (s.mode.layer).isCode c = false) :
    SameBrackets s (s.step c) := by
  obtain ⟨a, ha, hstep⟩ := s.step_acts c
  rw [ha.isCode] at h
  rw [hstep]
  cases a with
  | turn mode => exact s.sameBrackets_enter mode
  | code | slash | word text => cases h
  | blockComment text => exact s.sameBrackets_endComment _ false
  | lineComment text =>
    exact (s.sameBrackets_endComment _ true).trans
      (sameBrackets_updateContext (Context.skeleton_endLine _))
  | directive => exact ⟨s.scope.skeleton_update rfl, rfl⟩
  | literal text => exact ⟨s.scope.skeleton_update (Context.skeleton_pushIfStarted _ _ _), rfl⟩

end State

end HeaderDocs.Scan
