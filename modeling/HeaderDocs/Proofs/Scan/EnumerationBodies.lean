import HeaderDocs.Proofs.Scan.Literals

/-!
# Bodies of enumerations

In the body of an enumeration constants are recorded below the node of the enumeration, and the run
before the body waits for the name that is declared for the type. Marks and literals of the body are
appended to it all the same.

* `EnumerationText`: a look at the text of a body that finds these marks and literals.
* `InEnumeration.run`: while a body is read, the run grows exactly if the text has one of them.
-/
namespace HeaderDocs.Scan

open HeaderDocs.Text

/-! ## Contexts -/

namespace Context

/-- Comments claim nothing but constants of an enumeration. -/
def ClaimsConstants (c : Context) : Prop :=
  ∀ claims, c.claim = some claims → ∀ claim ∈ claims, ∃ i, claim = .constant i

theorem claimsConstants_of_none {c : Context} (h : c.claim = none) : c.ClaimsConstants := by
  intro claims hclaims
  rw [h] at hclaims
  cases hclaims

theorem ClaimsConstants.afterInsert {c : Context} (h : c.ClaimsConstants) (path : Path) :
    (c.afterInsert path).ClaimsConstants := by
  intro claims hclaims claim hm
  obtain ⟨before, hbefore, rfl⟩ := Option.map_eq_some_iff.mp hclaims
  obtain ⟨claim', hm', rfl⟩ := List.mem_map.mp hm
  obtain ⟨i, rfl⟩ := h before hbefore claim' hm'
  exact ⟨i, rfl⟩

theorem ClaimsConstants.afterRemove {c : Context} (h : c.ClaimsConstants) (path : Path)
    (removed : Node) : (c.afterRemove path removed).ClaimsConstants := by
  intro claims hclaims claim hm
  obtain ⟨before, hbefore, rfl⟩ := Option.map_eq_some_iff.mp hclaims
  obtain ⟨claim', hm, hclaim⟩ := List.mem_filterMap.mp hm
  obtain ⟨i, rfl⟩ := h before hbefore claim' hm
  exact ⟨i, (Option.some.inj hclaim).symm⟩

/-- The context in the body of an enumeration whose type is to be named: `opening` is the run before
the body, and `marked` says whether something of the body has been appended to it. -/
structure InEnumeration (opening : Run) (marked : Bool) (c : Context) : Prop where
  braces : c.braces = 1
  header : c.header = none
  record : c.record = none
  enumeration : c.enumeration.isSome = true
  typeAlias : c.typeAlias = some { kind := .typeAlias }
  claim : ∀ claims, c.claim = some claims → ∀ claim ∈ claims, ∃ i, claim = .constant i
  run : ∃ more : Run, c.run = opening ++ more ∧ (∀ f ∈ more, f.text ≠ "") ∧
    (marked = true ↔ more ≠ [])
  /-- Every parenthesis that is open is one of the marks. -/
  parens : marked = false → c.parens = 0

namespace InEnumeration

variable {opening : Run} {marked : Bool} {c : Context}

theorem isOpen (h : c.InEnumeration opening marked) : c.inEnumeration = true := by
  simp [Context.inEnumeration, h.enumeration, h.braces]

theorem notInArguments (h : c.InEnumeration opening marked) : c.inArguments = false := by
  rw [Context.inArguments, h.header]

theorem run_ne_nil (h : c.InEnumeration opening marked) (hopening : opening ≠ []) : c.run ≠ [] := by
  obtain ⟨more, hrun, -, -⟩ := h.run
  rw [hrun]
  exact List.append_ne_nil_of_left_ne_nil hopening more

theorem startRun (h : c.InEnumeration opening marked) (hopening : opening ≠ []) :
    c.startRun = c := by
  rw [Context.startRun, if_neg (by simpa using h.run_ne_nil hopening)]

theorem withClaim (h : c.InEnumeration opening marked) {claim : Option (List Claim)}
    (hclaim : ∀ claims, claim = some claims → ∀ claim ∈ claims, ∃ i, claim = .constant i) :
    InEnumeration opening marked { c with claim } :=
  ⟨h.braces, h.header, h.record, h.enumeration, h.typeAlias, hclaim, h.run, h.parens⟩

theorem endLine (h : c.InEnumeration opening marked) : c.endLine.InEnumeration opening marked :=
  h.withClaim fun _ he => absurd he (Option.some_ne_none _).symm

theorem withComment (h : c.InEnumeration opening marked) (comment : Option String)
    (joinable : Bool) : InEnumeration opening marked { c with comment, joinable } :=
  ⟨h.braces, h.header, h.record, h.enumeration, h.typeAlias, h.claim, h.run, h.parens⟩

theorem withEnumeration (h : c.InEnumeration opening marked) (place : Place) :
    InEnumeration opening marked { c with enumeration := some place } :=
  ⟨h.braces, h.header, h.record, rfl, h.typeAlias, h.claim, h.run, h.parens⟩

theorem push (h : c.InEnumeration opening marked) {text : String} (htext : text ≠ "")
    (spaced : Bool) (parens : Nat) :
    InEnumeration opening true { c with run := c.run.push text spaced, parens } := by
  obtain ⟨more, hrun, htexts, -⟩ := h.run
  refine ⟨h.braces, h.header, h.record, h.enumeration, h.typeAlias, h.claim,
    ⟨more ++ [⟨text, spaced⟩], ?_, ?_, by simp⟩, by simp⟩
  · simp [Run.push, hrun]
  · intro f hf
    rcases List.mem_append.mp hf with hf | hf
    · exact htexts f hf
    · rw [List.mem_singleton.mp hf]
      exact htext

theorem pushMark (h : c.InEnumeration opening marked) (hopening : opening ≠ []) {mark : String}
    (hmark : mark ≠ "") : (c.pushMark mark).InEnumeration opening true := by
  rw [Context.pushMark, h.startRun hopening, if_neg (by simpa using h.run_ne_nil hopening)]
  exact h.push hmark _ c.parens

theorem pushIfStarted (h : c.InEnumeration opening marked) (hopening : opening ≠ [])
    {text : String} (htext : text ≠ "") (spaced : Bool) :
    (c.pushIfStarted text spaced).InEnumeration opening true := by
  rw [Context.pushIfStarted, if_neg (by simpa using h.run_ne_nil hopening)]
  exact h.push htext _ c.parens

theorem pushFragment (h : c.InEnumeration opening marked) (hopening : opening ≠ [])
    {text : String} (htext : text ≠ "") (spaced : Bool) :
    (c.pushFragment text spaced).InEnumeration opening true := by
  rw [Context.pushFragment, h.startRun hopening]
  exact h.pushIfStarted hopening htext spaced

theorem openParen (h : c.InEnumeration opening marked) (hopening : opening ≠ []) :
    c.openParen.InEnumeration opening true := by
  have hpush := h.pushMark hopening (by decide : "(" ≠ "")
  exact ⟨hpush.braces, hpush.header, hpush.record, hpush.enumeration, hpush.typeAlias, hpush.claim,
    hpush.run, nofun⟩

/-- A parenthesis closes one that is among the marks, or nothing. -/
theorem closeParen (h : c.InEnumeration opening marked) (hopening : opening ≠ []) :
    c.closeParen.InEnumeration opening marked := by
  unfold Context.closeParen
  rw [h.notInArguments]
  cases marked with
  | false =>
    have hparens := h.parens rfl
    simp only [Bool.false_eq_true, if_false, hparens, Nat.lt_irrefl]
    exact ⟨h.braces, h.header, h.record, h.enumeration, h.typeAlias, h.claim, h.run, fun _ => rfl⟩
  | true =>
    simp only [Bool.false_eq_true, if_false]
    split
    · have hpush := h.pushIfStarted hopening (by decide : ")" ≠ "") false
      exact ⟨hpush.braces, hpush.header, hpush.record, hpush.enumeration, hpush.typeAlias,
        hpush.claim, hpush.run, nofun⟩
    · exact ⟨h.braces, h.header, h.record, h.enumeration, h.typeAlias, h.claim, h.run, nofun⟩

theorem withInValue (h : c.InEnumeration opening marked) (inValue : Bool) :
    InEnumeration opening marked { c with inValue } :=
  ⟨h.braces, h.header, h.record, h.enumeration, h.typeAlias, h.claim, h.run, h.parens⟩

theorem comma (h : c.InEnumeration opening marked) : c.comma.InEnumeration opening marked := by
  rw [Context.comma, if_pos h.isOpen]
  exact h.withInValue false

theorem equals (h : c.InEnumeration opening marked) : c.equals.InEnumeration opening marked := by
  rw [Context.equals, if_pos h.isOpen]
  exact h.withInValue true

theorem afterInsert (h : c.InEnumeration opening marked) (path : Path) :
    (c.afterInsert path).InEnumeration opening marked := by
  refine ⟨h.braces, ?_, ?_, ?_, h.typeAlias, ClaimsConstants.afterInsert h.claim path, h.run,
    h.parens⟩
  · simp [Context.afterInsert, h.header]
  · simp [Context.afterInsert, h.record]
  · simp [Context.afterInsert, h.enumeration]

theorem afterRemove (h : c.InEnumeration opening marked) (path : Path) (removed : Node) :
    (c.afterRemove path removed).InEnumeration opening marked := by
  refine ⟨h.braces, ?_, ?_, ?_, h.typeAlias, ClaimsConstants.afterRemove h.claim path removed,
    h.run, h.parens⟩
  · simp [Context.afterRemove, h.header]
  · simp [Context.afterRemove, h.record]
  · simp [Context.afterRemove, h.enumeration]

end InEnumeration

end Context

/-! ## Constants of an enumeration -/

/-- A property of scopes that recording the constants of an enumeration keeps, and so do describing them
and taking them out again. Only constants are claimed by comments. -/
structure OpenScope.KeptByConstants (Q : OpenScope → Prop) : Prop where
  claims : ∀ {s}, Q s → s.context.ClaimsConstants
  withClaim : ∀ {s}, Q s → ∀ claim, Context.ClaimsConstants { s.context with claim } →
    Q (s.update ({ · with claim }))
  withComment : ∀ {s}, Q s → ∀ comment joinable, Q (s.update ({ · with comment, joinable }))
  note : ∀ {s}, Q s → ∀ event, Q (s.note event)
  insertAt : ∀ {s}, Q s → ∀ new e i, Q (s.insertAt [e, i] new)
  removeAt : ∀ {s}, Q s → ∀ e i, Q (s.removeAt [e, i])
  describeAt : ∀ {s}, Q s → ∀ raw e i, Q (s.modifyAt (·.describe raw) [e, i])
  withAside : ∀ {s}, Q s → ∀ old, s.context.enumeration = some (.aside old) →
    ∀ new, Q (s.update ({ · with enumeration := some (.aside new) }))

namespace OpenScope.KeptByConstants

variable {Q : OpenScope → Prop} {s : OpenScope}

theorem describeClaim (hQ : KeptByConstants Q) (h : Q s) (raw : String) (i : Nat) :
    Q (OpenScope.describeClaim raw s (.constant i)) := by
  unfold OpenScope.describeClaim
  dsimp only
  split
  · exact hQ.describeAt h raw _ i
  · rename_i node haside
    exact hQ.withAside h node haside _
  · exact h

theorem withdrawClaim (hQ : KeptByConstants Q) (h : Q s) (i : Nat) :
    Q (s.withdrawClaim (.constant i)) := by
  unfold OpenScope.withdrawClaim
  dsimp only
  split
  · exact hQ.removeAt h _ i
  · rename_i node haside
    exact hQ.withAside h node haside _
  · exact h

theorem withdrawFirst (hQ : KeptByConstants Q) (h : Q s) (count : Nat) :
    Q (OpenScope.withdrawFirst count s) := by
  induction count generalizing s with
  | zero => exact h
  | succ count ih =>
    unfold OpenScope.withdrawFirst
    split
    · rename_i claim claims hclaim
      obtain ⟨i, rfl⟩ := hQ.claims h _ hclaim claim (List.mem_cons_self ..)
      have hrest : Q (s.update ({ · with claim := some claims })) := hQ.withClaim h _ (by
        rintro _ ⟨⟩ claim hm
        exact hQ.claims h _ hclaim claim (List.mem_cons_of_mem _ hm))
      exact ih (hQ.withdrawClaim hrest i)
    · exact h

theorem describeClaims (hQ : KeptByConstants Q) (h : Q s) (raw : String) (claims : List Claim)
    (hclaims : ∀ claim ∈ claims, ∃ i, claim = .constant i) :
    Q (claims.foldl (OpenScope.describeClaim raw) s) := by
  induction claims generalizing s with
  | nil => exact h
  | cons claim claims ih =>
    obtain ⟨i, rfl⟩ := hclaims claim (List.mem_cons_self ..)
    exact ih (hQ.describeClaim h raw i) fun claim hm => hclaims claim (List.mem_cons_of_mem _ hm)

/-- A comment in a body describes a constant or takes one out, or waits. -/
theorem takeComment (hQ : KeptByConstants Q) (h : Q s) (hbraces : s.context.braces ≠ 0)
    (hrun : s.context.run = [] ∨ s.context.inEnumeration = true) (text : String) (line : Bool) :
    Q (s.takeComment text line) := by
  unfold OpenScope.takeComment
  dsimp only
  split
  · exact h
  · split
    · rename_i claims hclaims
      have hforget : ∀ t : OpenScope, Q t →
          Q (t.update ({ · with claim := none, joinable := false })) := fun t ht =>
        hQ.withClaim (hQ.withComment ht t.context.comment false) none
          (Context.claimsConstants_of_none rfl)
      unfold OpenScope.settleClaims
      dsimp only
      split
      · exact hforget _ (hQ.withdrawFirst h _)
      · exact hforget _ (hQ.describeClaims h _ _ (hQ.claims h claims hclaims))
    · rw [if_neg (by simp [hbraces]), if_neg (by rcases hrun with hrun | hrun <;> simp [hrun])]
      exact hQ.withComment h _ line

theorem commitTo (hQ : KeptByConstants Q) (h : Q s) (e : Nat) (node : Node) :
    Q (s.commitTo [e] node).1 := by
  refine s.commitTo_cases [e] node (fun _ => hQ.note h _) (fun _ => h) ?_
  intro _ ins room _ _ _ hroom
  have hremoved : Q room := hroom.of_removeAt h (hQ.removeAt h e)
  exact hQ.note (hQ.insertAt hremoved ins.node e ins.position) _

theorem commitAside (hQ : KeptByConstants Q) (h : Q s) (home node : Node) :
    Q (s.commitAside home node).1 ∧ (s.commitAside home node).1.context = s.context :=
  OpenScope.scope_commitAside (P := fun t => Q t ∧ t.context = s.context) ⟨h, rfl⟩
    (fun _ => ⟨hQ.note h _, rfl⟩) home node

theorem claimConstant (hQ : KeptByConstants Q) (h : Q s) (i : Nat) :
    Q (s.update ({ · with claim := some [.constant i] })) :=
  hQ.withClaim h _ (by
    rintro _ ⟨⟩ claim hm
    exact ⟨i, List.mem_singleton.mp hm⟩)

theorem declareConstant (hQ : KeptByConstants Q) (h : Q s) (word : String) :
    Q (s.declareConstant word) := by
  have htake : Q (s.update .takeComment) := hQ.withComment h none false
  unfold OpenScope.declareConstant
  extract_lets node t
  split
  · rename_i e _
    have hcommit := hQ.commitTo htake e node
    split
    · rename_i u path he
      rw [he] at hcommit
      exact hQ.claimConstant hcommit _
    · rename_i u he
      rw [he] at hcommit
      exact hcommit
  · rename_i home haside
    have hcommit := hQ.commitAside htake home node
    split
    · rename_i u i home' he
      rw [he] at hcommit
      exact hQ.claimConstant (hQ.withAside hcommit.1 home (hcommit.2 ▸ haside) home') i
    · rename_i u home' he
      rw [he] at hcommit
      exact hcommit.1
  · exact htake

end OpenScope.KeptByConstants

/-! ## Scopes -/

/-- The scope of a source in the body of an enumeration, before a name for its type. -/
structure OpenScope.InEnumeration (opening : Run) (marked : Bool) (s : OpenScope) : Prop where
  context : s.context.InEnumeration opening marked
  root : s.node.kind = .root
  unnamed : ∀ c ∈ s.node.children, c.kind ≠ .typeAlias

namespace OpenScope.InEnumeration

variable {opening : Run} {marked : Bool} {s : OpenScope}

theorem update (h : s.InEnumeration opening marked) {marked' : Bool} {f : Context → Context}
    (hf : (f s.context).InEnumeration opening marked') :
    (s.update f).InEnumeration opening marked' :=
  ⟨hf, h.root, h.unnamed⟩

/-- What happens below a child leaves the children of the scope the kinds they have. -/
theorem modifyChild (h : s.InEnumeration opening marked) {f : Node → Node}
    (hf : ∀ c, (f c).kind = c.kind) {t : OpenScope} {e : Nat}
    (hcontext : t.context.InEnumeration opening marked)
    (hnode : t.node = { s.node with children := s.node.children.modify e f }) :
    t.InEnumeration opening marked := by
  refine ⟨hcontext, by rw [hnode]; exact h.root, fun c hc => ?_⟩
  have hkinds : t.node.children.map (·.kind) = s.node.children.map (·.kind) := by
    rw [hnode]
    exact Node.map_modify_eq fun c _ => hf c
  obtain ⟨d, hd, hkind⟩ := List.mem_map.mp (hkinds ▸ List.mem_map_of_mem hc)
  exact hkind ▸ h.unnamed d hd

theorem removeAt (h : s.InEnumeration opening marked) (e i : Nat) :
    (s.removeAt [e, i]).InEnumeration opening marked := by
  unfold OpenScope.removeAt
  split
  · exact h.modifyChild (fun c => Node.kind_eq_of_key (Node.key_removeAt c [i]))
      (h.context.afterRemove _ _) rfl
  · exact h

theorem describeAt (h : s.InEnumeration opening marked) (raw : String) (e i : Nat) :
    (s.modifyAt (·.describe raw) [e, i]).InEnumeration opening marked :=
  h.modifyChild (fun c => Node.kind_eq_of_key (Node.key_modifyAt (fun m => Node.key_describe m raw)
    c [i])) h.context rfl

theorem withEnumeration (h : s.InEnumeration opening marked) (place : Place) :
    (s.update ({ · with enumeration := some place })).InEnumeration opening marked :=
  h.update (h.context.withEnumeration place)

/-- What is done to the constants of an enumeration leaves the scope in its body. -/
theorem keptByConstants (opening : Run) (marked : Bool) :
    OpenScope.KeptByConstants (OpenScope.InEnumeration opening marked) where
  claims h := h.context.claim
  withClaim h _ hclaim := h.update (h.context.withClaim hclaim)
  withComment h comment joinable := h.update (h.context.withComment comment joinable)
  note h _ := ⟨h.context, h.root, h.unnamed⟩
  insertAt h new _ i :=
    h.modifyChild (fun c => Node.kind_eq_of_key (Node.key_insertAt c new [i]))
      (h.context.afterInsert _) rfl
  removeAt h e i := h.removeAt e i
  describeAt h raw e i := h.describeAt raw e i
  withAside h _ _ new := h.withEnumeration (.aside new)

theorem takeComment (h : s.InEnumeration opening marked) (text : String) (line : Bool) :
    (s.takeComment text line).InEnumeration opening marked :=
  (keptByConstants opening marked).takeComment h (by simp [h.context.braces]) (.inr h.context.isOpen)
    text line

theorem word (h : s.InEnumeration opening marked) (word : String) (terminator : Char) :
    (s.word word terminator).InEnumeration opening marked := by
  unfold OpenScope.word
  dsimp only
  rw [if_neg (by simp [h.context.braces]), if_pos h.context.enumeration]
  split
  · exact (keptByConstants opening marked).declareConstant h word
  · exact h

end OpenScope.InEnumeration

/-! ## Texts -/

/-- What a look at the text of a body finds. -/
structure EnumerationText where
  layer : Layer := .code
  /-- Whether a word is being read. -/
  word : Bool := false
  /-- Whether there was a mark that is appended to a run, or a literal. -/
  marked : Bool := false
deriving DecidableEq, Repr

namespace EnumerationText

/-- Marks that are appended to a run, wherever they stand outside of words. -/
def isTypeMark (c : Char) : Bool := ['(', '*', '+', '-', '&', ':'].contains c

theorem isTypeMark_eq_false {p : Char → Bool}
    (hp : ['(', '*', '+', '-', '&', ':'].all (!p ·) = true) {c : Char} (h : p c = true) :
    isTypeMark c = false := by
  simpa [isTypeMark] using notMem_of_class hp h

/-- Whether a character of the code goes on with a word. -/
def continuesWord (b : EnumerationText) (c : Char) : Bool := b.word && State.isWordPart 0 c

/-- Whether anything has been appended to the run after a character of the code. -/
def marksAt (b : EnumerationText) (c : Char) : Bool :=
  b.marked || b.layer == .slash || !b.continuesWord c && isTypeMark c

/-- Reads a character. A body ends at a brace, and no value holds a brace or a semicolon. -/
def read? (b : EnumerationText) (c : Char) : Option EnumerationText :=
  if b.layer.isCode c then
    if ['\x7b', '\x7d', ';'].contains c then none
    else
      some
        { layer := b.layer.next c
          word := b.continuesWord c || State.isWordStart c
          marked := b.marksAt c }
  else
    some
      { layer := b.layer.next c
        word := false
        marked := b.marked || b.layer.isLiteral && !(b.layer.next c).isLiteral }

end EnumerationText

/-- Whether a body has marks or literals that become part of the type before it. A text with braces
or semicolons in its code is no body, nor one whose last comment, literal or directive is not
complete. -/
def marksType? (body : List Char) : Option Bool :=
  (body.foldlM EnumerationText.read? {}).bind fun b =>
    if b.layer == .code || b.layer == .slash then some (b.marked || b.layer == .slash) else none

theorem marksType?_eq_some_iff {body : List Char} {marked : Bool} :
    marksType? body = some marked ↔
      ∃ b, body.foldlM EnumerationText.read? {} = some b ∧ (b.layer = .code ∨ b.layer = .slash) ∧
        (b.marked || b.layer == .slash) = marked := by
  unfold marksType?
  cases body.foldlM EnumerationText.read? {} with
  | none => simp
  | some b => simp

example : marksType? " A = 1, /* (* */ B[2] = C << 3 ".toList = some false := by decide +kernel

example : marksType? " A = '*' ".toList = some true := by decide +kernel

/-! ## Reading a body -/

def Mode.isWord : Mode → Bool
  | .word _ => true
  | _ => false

theorem Mode.Follows.isWord {c : Char} {next : Mode} (h : Mode.Follows c .plain next) :
    next.isWord = State.isWordStart c := by
  cases h with
  | same _ hword => exact (hword.elim isWordStart_of_isSpace id).symm
  | slash hc => exact hc ▸ (by decide)
  | begins hnext =>
    cases hnext with
    | directive hc => exact hc ▸ (by decide)
    | literal hc => obtain rfl | rfl := hc <;> decide
    | word hc => exact hc.symm

structure State.InEnumeration (opening : Run) (b : EnumerationText) (s : State) : Prop where
  reads : s.ReadsIn b.layer
  enclosing : s.enclosing = []
  scope : s.scope.InEnumeration opening b.marked
  word : b.marked = false → s.mode.isWord = b.word

namespace State.InEnumeration

variable {opening : Run} {marked : Bool} {s : State}

theorem mark (hopening : opening ≠ []) (h : s.scope.InEnumeration opening marked) {c : Char}
    (hc : ['\x7b', '\x7d', ';'].contains c = false) :
    (s.mark c).scope.InEnumeration opening (marked || EnumerationText.isTypeMark c) ∧
      (s.mark c).enclosing = s.enclosing := by
  have hsame : EnumerationText.isTypeMark c = false → ∀ {t : OpenScope},
      t.InEnumeration opening marked →
      t.InEnumeration opening (marked || EnumerationText.isTypeMark c) := by
    intro hd t ht
    rwa [hd, Bool.or_false]
  have hgrows : EnumerationText.isTypeMark c = true → ∀ {t : OpenScope},
      t.InEnumeration opening true →
      t.InEnumeration opening (marked || EnumerationText.isTypeMark c) := by
    intro hd t ht
    rwa [hd, Bool.or_true]
  refine mark_cases c ?begins ?openBrace ?closeBrace ?openParen ?closeParen ?semicolon ?comma
    ?equals ?sign ?ampersand ?colon ?other
  case begins =>
    refine fun mode hmode => ⟨hsame ?_ h, rfl⟩
    cases hmode with
    | directive hc => exact hc ▸ (by decide)
    | literal hc => obtain rfl | rfl := hc <;> decide
    | word hc => exact EnumerationText.isTypeMark_eq_false (by decide) hc
  case openBrace | closeBrace | semicolon =>
    rintro rfl
    cases hc
  case openParen =>
    rintro rfl
    exact ⟨hgrows (by decide) (h.update (h.context.openParen hopening)), rfl⟩
  case closeParen =>
    rintro rfl
    exact ⟨hsame (by decide) (h.update (h.context.closeParen hopening)), rfl⟩
  case comma =>
    rintro rfl
    exact ⟨hsame (by decide) (h.update h.context.comma), rfl⟩
  case equals =>
    rintro rfl
    exact ⟨hsame (by decide) (h.update h.context.equals), rfl⟩
  case sign =>
    intro hsign
    have hpush := h.update (f := (·.pushMark c.toString))
      (h.context.pushMark hopening (by obtain rfl | rfl | rfl := hsign <;> decide))
    exact ⟨hgrows (by obtain rfl | rfl | rfl := hsign <;> decide) hpush, rfl⟩
  case ampersand =>
    rintro rfl
    have hand := h.update (f := (·.pushFragment "&" true))
      (h.context.pushFragment hopening (by decide) true)
    exact ⟨hgrows (by decide) hand, rfl⟩
  case colon =>
    rintro rfl
    have hcolon := h.update (f := (·.pushIfStarted ":" true))
      (h.context.pushIfStarted hopening (by decide) true)
    exact ⟨hgrows (by decide) hcolon, rfl⟩
  case other =>
    refine fun hmarks _ => ⟨hsame ?_ h, rfl⟩
    simp only [marks, List.mem_cons, not_or] at hmarks
    simp [EnumerationText.isTypeMark, hmarks]

theorem plain (hopening : opening ≠ []) (h : s.scope.InEnumeration opening marked) {c : Char}
    (hc : ['\x7b', '\x7d', ';'].contains c = false) :
    (s.plain c).scope.InEnumeration opening (marked || EnumerationText.isTypeMark c) ∧
      (s.plain c).enclosing = s.enclosing := by
  have hjoin := h.context.withComment s.scope.context.comment false
  refine plain_cases c ?newline ?space ?slash ?mark
  case newline =>
    rintro rfl
    rw [show EnumerationText.isTypeMark '\n' = false by decide, Bool.or_false]
    exact ⟨h.update (f := fun c => { c with claim := none, joinable := false }) hjoin.endLine, rfl⟩
  case space =>
    intro hspace
    rw [EnumerationText.isTypeMark_eq_false (by decide) hspace, Bool.or_false]
    exact ⟨h, rfl⟩
  case slash =>
    rintro rfl
    rw [show EnumerationText.isTypeMark '/' = false by decide, Bool.or_false]
    exact ⟨h, rfl⟩
  case mark =>
    exact fun _ _ => mark (s := s.update (·.update ({ · with joinable := false }))) hopening
      (h.update (f := ({ · with joinable := false })) hjoin) hc

variable {b b' : EnumerationText}

theorem step_code (hopening : opening ≠ []) (h : s.InEnumeration opening b) {c : Char}
    (hcode : b.layer.isCode c = true) (hc : ['\x7b', '\x7d', ';'].contains c = false) :
    (s.step c).scope.InEnumeration opening (b.marksAt c) ∧ (s.step c).enclosing = s.enclosing ∧
      (b.marksAt c = false → (s.step c).mode.isWord = (b.continuesWord c || isWordStart c)) := by
  obtain ⟨⟨hlayer, -⟩, -, hscope, hword⟩ := h
  have hne : (Layer.code == .slash) = false := rfl
  -- outside of words
  have hplain : ∀ t : State, b.layer = .code → s.step c = t.plain c → t.mode = .plain →
      t.enclosing = s.enclosing → t.scope.InEnumeration opening b.marked →
      (b.marked = false → b.continuesWord c = false) →
      (s.step c).scope.InEnumeration opening (b.marksAt c) ∧ (s.step c).enclosing = s.enclosing ∧
        (b.marksAt c = false → (s.step c).mode.isWord = (b.continuesWord c || isWordStart c)) := by
    intro t hl hstep hmode henclosing ht hcontinues
    obtain ⟨hs, he⟩ := plain hopening ht hc
    have hnext := t.mode_plain c
    rw [hmode] at hnext
    have hmarks : b.marksAt c = (b.marked || EnumerationText.isTypeMark c) := by
      cases hmarked : b.marked with
      | true => simp [EnumerationText.marksAt, hmarked]
      | false => simp [EnumerationText.marksAt, hmarked, hcontinues hmarked, hl, hne]
    rw [hstep, hmarks]
    refine ⟨hs, he.trans henclosing, fun hnone => ?_⟩
    rw [hnext.isWord, hcontinues (Bool.or_eq_false_iff.mp hnone).1, Bool.false_or]
  obtain ⟨a, ha, hstep⟩ := s.step_acts c
  rw [← hlayer, ha.isCode] at hcode
  cases a with
  | turn mode =>
    cases ha with
    | outside _ hnext => exact absurd (eq_of_beq hcode) hnext.layer_ne
    | @part text hm hpart =>
      have hl : b.layer = .code := by rw [← hlayer, hm]; rfl
      have hcontinues : b.marked = false → b.continuesWord c = true := by
        intro hmarked
        rw [EnumerationText.continuesWord, ← hword hmarked, hm, ← hscope.context.parens hmarked,
          hpart]
        rfl
      have hmarks : b.marksAt c = b.marked := by
        cases hmarked : b.marked with
        | true => simp [EnumerationText.marksAt, hmarked]
        | false => simp [EnumerationText.marksAt, hmarked, hcontinues hmarked, hl, hne]
      rw [hstep, hmarks]
      refine ⟨hscope, rfl, fun hmarked => ?_⟩
      rw [hcontinues hmarked]
      rfl
  | code =>
    cases ha with | code hm
    have hl : b.layer = .code := by rw [← hlayer, hm]; rfl
    refine hplain s hl hstep hm rfl hscope fun hmarked => ?_
    rw [EnumerationText.continuesWord, ← hword hmarked, hm]
    rfl
  | slash =>
    cases ha with | slash hm
    have hl : b.layer = .slash := by rw [← hlayer, hm]; rfl
    have hmarks : b.marksAt c = true := by simp [EnumerationText.marksAt, hl]
    have hjoin := hscope.context.withComment s.scope.context.comment false
    have hslash := hscope.update (f := fun c => { c with joinable := false }.pushMark "/")
      (hjoin.pushMark hopening (by decide))
    obtain ⟨hs, he⟩ := plain (s := (s.enter .plain).update
      (·.update fun c => { c with joinable := false }.pushMark "/")) hopening hslash hc
    rw [Bool.true_or] at hs
    rw [hstep, hmarks]
    exact ⟨hs, he, nofun⟩
  | word text =>
    cases ha with | word hm hpart
    have hl : b.layer = .code := by rw [← hlayer, hm]; rfl
    refine hplain ((s.enter .plain).update (·.word (String.ofList text.reverse) c)) hl hstep rfl rfl
      (hscope.word _ c) fun hmarked => ?_
    rw [EnumerationText.continuesWord, ← hscope.context.parens hmarked, hpart, Bool.and_false]
  | blockComment text | lineComment text | directive | literal text => cases hcode

/-- A character of a comment, a literal or a directive, or one that begins a comment. -/
theorem step_outside (hopening : opening ≠ []) (h : s.InEnumeration opening b) {c : Char}
    (hcode : b.layer.isCode c = false) :
    (s.step c).scope.InEnumeration opening
        (b.marked || b.layer.isLiteral && !(b.layer.next c).isLiteral) ∧
      (s.step c).enclosing = s.enclosing ∧ (s.step c).mode.isWord = false := by
  obtain ⟨hreads, -, hscope, -⟩ := h
  have hnext : (s.step c).mode.layer = b.layer.next c := (layer_step hreads c).1
  obtain ⟨a, ha, hstep⟩ := s.step_acts c
  rw [← hreads.1, ha.isCode] at hcode
  have hsame : ∀ t : OpenScope, t.InEnumeration opening b.marked →
      (b.layer.isLiteral && !(b.layer.next c).isLiteral) = false →
      t.InEnumeration opening (b.marked || b.layer.isLiteral && !(b.layer.next c).isLiteral) := by
    intro t ht hliteral
    rwa [hliteral, Bool.or_false]
  have hother : s.mode.layer.isLiteral = false →
      (b.layer.isLiteral && !(b.layer.next c).isLiteral) = false := by
    intro hliteral
    rw [← hreads.1, hliteral, Bool.false_and]
  rw [hstep] at hnext ⊢
  cases a with
  | turn mode =>
    have hlayer : mode.layer ≠ .code := beq_eq_false_iff_ne.mp hcode
    refine ⟨hsame _ hscope ?_, rfl, ?_⟩
    · cases hliteral : b.layer.isLiteral with
      | false => rfl
      | true =>
        have hgoes := Layer.isLiteral_next hliteral (hnext ▸ hlayer)
        rw [hgoes]
        rfl
    · cases mode with
      | word text => exact absurd rfl hlayer
      | _ => rfl
  | code | slash | word text => cases hcode
  | blockComment text =>
    refine ⟨hsame _ (hscope.takeComment _ _) (hother ?_), rfl, rfl⟩
    cases ha with | block hmode | star hmode => exact hmode ▸ rfl
  | lineComment text =>
    cases ha with | line hmode
    have hend := hscope.takeComment
      (String.ofList (trim (text.reverse.dropWhile fun c => c == '/' || c == '!'))) true
    exact ⟨hsame _ (hend.update hend.context.endLine) (hother (hmode ▸ rfl)), rfl, rfl⟩
  | directive =>
    refine ⟨hsame _ (hscope.update hscope.context.endLine) (hother ?_), rfl, rfl⟩
    cases ha with | directive hmode | directiveSlash hmode => exact hmode ▸ rfl
  | literal text =>
    cases ha with | literal hmode
    have hne : String.ofList (c :: text).reverse ≠ "" := by
      intro he
      have hlist := congrArg String.toList he
      rw [String.toList_ofList] at hlist
      exact absurd hlist (by simp)
    have hpush := hscope.update
      (f := (·.pushIfStarted (String.ofList (c :: text).reverse) true))
      (hscope.context.pushIfStarted hopening hne true)
    refine ⟨?_, rfl, rfl⟩
    have hends : (b.layer.isLiteral && !(b.layer.next c).isLiteral) = true := by
      rw [← hnext, ← hreads.1, hmode]
      rfl
    rw [hends, Bool.or_true]
    exact hpush

theorem step (hopening : opening ≠ []) (h : s.InEnumeration opening b) {c : Char}
    (hc : b.read? c = some b') : (s.step c).InEnumeration opening b' := by
  unfold EnumerationText.read? at hc
  split at hc
  · rename_i hcode
    split at hc
    · cases hc
    · rename_i hstop
      obtain ⟨hscope, henclosing, hword⟩ := h.step_code hopening hcode (by simpa using hstop)
      cases hc
      exact ⟨layer_step h.reads c, henclosing.trans h.enclosing, hscope, hword⟩
  · rename_i hcode
    obtain ⟨hscope, henclosing, hword⟩ := h.step_outside hopening (by simpa using hcode)
    cases hc
    exact ⟨layer_step h.reads c, henclosing.trans h.enclosing, hscope, fun _ => hword⟩

theorem run (hopening : opening ≠ []) (h : s.InEnumeration opening b) {text : List Char}
    (ht : text.foldlM EnumerationText.read? b = some b') :
    (s.run text).InEnumeration opening b' :=
  run_beside (P := State.InEnumeration opening) (fun h hc => h.step hopening hc) h ht

end State.InEnumeration

end HeaderDocs.Scan
