import HeaderDocs.Proofs.Scan.FunctionHeader
import HeaderDocs.Proofs.Scan.Invariants
import HeaderDocs.Proofs.Scan.Skim

/-!
# Argument lists

Until its body or a semicolon comes, a function is a header in the context. An argument list adds
arguments to it, whatever comments, literals and parentheses are in them, and leaves the tree alone.

* `ListsArguments.invariant`: what the parts of an argument list do to the scope.
* `State.run_argumentList`: what is left when the argument list has been closed.
-/
namespace HeaderDocs.Scan

open HeaderDocs.Text HeaderDocs.Node

/-! ## Arguments of a header -/

theorem modify_eq_set {α : Type} {l : List α} {i : Nat} {a : α} (h : l[i]? = some a) (f : α → α) :
    l.modify i f = l.set i (f a) := by
  obtain ⟨hlt, rfl⟩ := List.getElem?_eq_some_iff.mp h
  refine List.ext_getElem? fun j => ?_
  rw [List.getElem?_modify, List.getElem?_set]
  split
  · rename_i hij
    subst hij
    simp [hlt]
  · simp

namespace Header

theorem extend_nil (h : Header) : h.extend [] = h := by
  rw [extend, List.append_nil, withChildren_self]

theorem removeLast (h : Header) (before : List Node) (last : Node) :
    { h.extend (before ++ [last]) with
      node := (h.extend (before ++ [last])).node.removeAt
        [(h.extend (before ++ [last])).node.children.length - 1] : Header } = h.extend before := by
  simp only [extend, withChildren, removeAt, List.eraseIdx_length_sub_one, ← List.append_assoc,
    List.dropLast_concat]

theorem describeLast (h : Header) (before : List Node) (last : Node) (raw : String) :
    { h.extend (before ++ [last]) with
      node := (h.extend (before ++ [last])).node.modifyAt (·.describe raw)
        [(h.extend (before ++ [last])).node.children.length - 1] : Header } =
      h.extend (before ++ [last.describe raw]) := by
  have hlast : (h.node.children ++ before ++ [last])[(h.node.children ++ before).length]? = some last :=
    List.getElem?_concat_length
  simp only [extend, withChildren, modifyAt, ← List.append_assoc, List.length_append,
    List.length_singleton, Nat.add_sub_cancel]
  rw [← List.length_append, modify_eq_set hlast, List.set_append_right _ _ (Nat.le_refl _), Nat.sub_self]
  rfl

end Header

/-! ## Argument lists -/

/-- What a comment on the line of an argument list can describe: the last argument, or what has
been declared before on the line. -/
def Context.ClaimsArgument (earlier : Option (List Claim)) (arguments : List Node)
    (claim : Option (List Claim)) : Prop :=
  claim = none ∨ claim = some [.argument] ∧ arguments ≠ [] ∨ claim = earlier

/-- A context in the argument list of a function that is not recorded yet: the header has gained
arguments. -/
def Context.ListsArguments (access : Option String) (earlier : Option (List Claim)) (head : Header)
    (awaited : List Char) (c : Context) : Prop :=
  ∃ arguments run runComment comment joinable claim, ClaimsArgument earlier arguments claim ∧
    c =
      { access, parens := awaited.length + 1, run, runComment, comment, joinable, claim
        header := some (head.extend arguments) }

/-- The scope in the argument list of a function: nothing but the context has changed. -/
def OpenScope.ListsArguments (base : OpenScope) (access : Option String)
    (earlier : Option (List Claim)) (head : Header) (awaited : List Char) (s : OpenScope) : Prop :=
  ∃ c : Context, s = { base with context := c } ∧ c.ListsArguments access earlier head awaited

namespace Context.ListsArguments

variable {access : Option String} {earlier : Option (List Claim)} {head : Header}
  {awaited : List Char} {c : Context}

theorem withRun (h : c.ListsArguments access earlier head awaited) (run : Run) :
    Context.ListsArguments access earlier head awaited { c with run } := by
  obtain ⟨arguments, -, runComment, comment, joinable, claim, hclaim, rfl⟩ := h
  exact ⟨arguments, run, runComment, comment, joinable, claim, hclaim, rfl⟩

theorem withComment (h : c.ListsArguments access earlier head awaited) (comment : Option String)
    (joinable : Bool) :
    Context.ListsArguments access earlier head awaited { c with comment, joinable } := by
  obtain ⟨arguments, run, runComment, -, -, claim, hclaim, rfl⟩ := h
  exact ⟨arguments, run, runComment, comment, joinable, claim, hclaim, rfl⟩

theorem interrupted (h : c.ListsArguments access earlier head awaited) :
    c.interrupted.ListsArguments access earlier head awaited :=
  h.withComment c.comment false

theorem endLine (h : c.ListsArguments access earlier head awaited) :
    c.endLine.ListsArguments access earlier head awaited := by
  obtain ⟨arguments, run, runComment, comment, joinable, -, -, rfl⟩ := h
  exact ⟨arguments, run, runComment, comment, joinable, none, .inl rfl, rfl⟩

theorem dropRun (h : c.ListsArguments access earlier head awaited) :
    c.dropRun.ListsArguments access earlier head awaited := by
  obtain ⟨arguments, -, -, comment, joinable, claim, hclaim, rfl⟩ := h
  exact ⟨arguments, [], none, comment, joinable, claim, hclaim, rfl⟩

theorem startRun (h : c.ListsArguments access earlier head awaited) : c.startRun = c := by
  obtain ⟨arguments, run, runComment, comment, joinable, claim, -, rfl⟩ := h
  cases run <;> rfl

theorem pushIfStarted (h : c.ListsArguments access earlier head awaited) (text : String)
    (spaced : Bool) :
    (c.pushIfStarted text spaced).ListsArguments access earlier head awaited := by
  unfold Context.pushIfStarted
  split
  · exact h
  · exact h.withRun _

theorem push (h : c.ListsArguments access earlier head awaited) (text : String) (spaced : Bool) :
    (c.pushMark text).ListsArguments access earlier head awaited ∧
      (c.pushFragment text spaced).ListsArguments access earlier head awaited ∧
      (c.pushWord text).ListsArguments access earlier head awaited := by
  unfold Context.pushMark Context.pushFragment Context.pushWord
  simp only [h.startRun]
  refine ⟨?_, h.pushIfStarted text spaced, h.withRun _⟩
  split
  · exact h
  · exact h.withRun _

theorem addArgument_eq (h : c.ListsArguments access earlier head awaited) :
    ∃ arguments claim, ClaimsArgument earlier arguments claim ∧
      c.addArgument =
        { access, parens := awaited.length + 1, comment := c.comment, joinable := c.joinable, claim
          header := some (head.extend arguments) } := by
  obtain ⟨arguments, run, runComment, comment, joinable, claim, hclaim, rfl⟩ := h
  unfold Context.addArgument
  dsimp only
  split
  · rename_i d _
    refine ⟨arguments ++ [d.toNode .argument], some [.argument], .inr (.inl ⟨rfl, by simp⟩), ?_⟩
    rw [← Header.extend_extend]
    rfl
  · exact ⟨arguments, none, .inl rfl, rfl⟩

theorem addArgument (h : c.ListsArguments access earlier head awaited) :
    c.addArgument.ListsArguments access earlier head awaited := by
  obtain ⟨arguments, claim, hclaim, he⟩ := h.addArgument_eq
  exact ⟨arguments, [], none, c.comment, c.joinable, claim, hclaim, he⟩

theorem endArgument_eq (h : c.ListsArguments access earlier head awaited) :
    ∃ arguments claim, ClaimsArgument earlier arguments claim ∧
      c.endArgument =
        { access, parens := awaited.length + 1, comment := c.comment, joinable := c.joinable, claim
          header := some (head.extend arguments) } := by
  unfold Context.endArgument
  split
  · exact h.addArgument_eq
  · obtain ⟨arguments, run, runComment, comment, joinable, claim, hclaim, rfl⟩ := h
    exact ⟨arguments, claim, hclaim, rfl⟩

theorem endArgument (h : c.ListsArguments access earlier head awaited) :
    c.endArgument.ListsArguments access earlier head awaited := by
  obtain ⟨arguments, claim, hclaim, he⟩ := h.endArgument_eq
  exact ⟨arguments, [], none, c.comment, c.joinable, claim, hclaim, he⟩

theorem comma (h : c.ListsArguments access earlier head awaited) :
    c.comma.ListsArguments access earlier head awaited := by
  have hnot : c.inEnumeration = false := by
    obtain ⟨arguments, run, runComment, comment, joinable, claim, -, rfl⟩ := h
    rfl
  unfold Context.comma
  rw [if_neg (by simp [hnot])]
  split
  · exact h.endArgument
  · exact h.pushIfStarted "," false

theorem equals (h : c.ListsArguments access earlier head awaited) :
    c.equals.ListsArguments access earlier head awaited := by
  have hnot : c.inEnumeration = false := by
    obtain ⟨arguments, run, runComment, comment, joinable, claim, -, rfl⟩ := h
    rfl
  unfold Context.equals
  rw [if_neg (by simp [hnot])]
  exact (h.push "=" false).1

theorem openParen (h : c.ListsArguments access earlier head awaited) :
    c.openParen.ListsArguments access earlier head (')' :: awaited) := by
  obtain ⟨arguments, run, runComment, comment, joinable, claim, hclaim, he⟩ :=
    (h.push "(" false).1
  unfold Context.openParen
  rw [he]
  exact ⟨arguments, run, runComment, comment, joinable, claim, hclaim, rfl⟩

theorem closeParen (h : c.ListsArguments access earlier head (')' :: awaited)) :
    c.closeParen.ListsArguments access earlier head awaited := by
  obtain ⟨arguments, run, runComment, comment, joinable, claim, hclaim, he⟩ :=
    h.pushIfStarted ")" false
  have hparens : c.inArguments = false ∧ 0 < c.parens := by
    obtain ⟨arguments, run, runComment, comment, joinable, claim, -, rfl⟩ := h
    exact ⟨Bool.and_false _, Nat.succ_pos _⟩
  have hclose : c.closeParen = { c.pushIfStarted ")" false with
      parens := (c.pushIfStarted ")" false).parens - 1 } := by
    unfold Context.closeParen
    rw [if_neg (by simp [hparens.1]), if_pos hparens.2]
  rw [hclose, he]
  exact ⟨arguments, run, runComment, comment, joinable, claim, hclaim, rfl⟩

/-- The parenthesis behind the arguments: only the header of the function is left, whose body may
come. -/
theorem closeParen_outermost (h : c.ListsArguments access earlier head [])
    (hopen : head.argumentsOpen = true) :
    ∃ arguments comment claim, c.interrupted.closeParen =
      { access, comment, claim
        header := some { head.extend arguments with argumentsOpen := false } } := by
  obtain ⟨arguments, claim, -, he⟩ := h.interrupted.endArgument_eq
  have harguments : c.interrupted.inArguments = true := by
    obtain ⟨arguments, run, runComment, comment, joinable, claim, -, rfl⟩ := h
    simp [Context.interrupted, Context.inArguments, Header.extend, hopen]
  refine ⟨arguments, c.comment, claim, ?_⟩
  unfold Context.closeParen
  rw [if_pos harguments, he]
  rfl

end Context.ListsArguments

namespace OpenScope.ListsArguments

variable {base : OpenScope} {access : Option String} {earlier : Option (List Claim)} {head : Header}
  {awaited : List Char} {s : OpenScope}

theorem update (h : base.ListsArguments access earlier head awaited s) {f : Context → Context}
    {awaited' : List Char}
    (hf : ∀ {c : Context}, c.ListsArguments access earlier head awaited →
      (f c).ListsArguments access earlier head awaited') :
    base.ListsArguments access earlier head awaited' (s.update f) := by
  obtain ⟨c, rfl, hc⟩ := h
  exact ⟨f c, rfl, hf hc⟩

theorem word (h : base.ListsArguments access earlier head awaited s) (word : String)
    (terminator : Char)
    (haccess : base.node.kind.isRecord = true → isAccess (withoutColons word) = false) :
    base.ListsArguments access earlier head awaited (s.word word terminator) := by
  have hdrop := h.update Context.ListsArguments.dropRun
  have hpush := h.update fun hc => (hc.push word false).2.2
  have hadd := hpush.update Context.ListsArguments.addArgument
  obtain ⟨c, rfl, hc⟩ := h
  have hstart := hc.startRun
  let t : OpenScope := { base with context := c }
  have hheader : c.header.isNone = false := by
    obtain ⟨arguments, run, runComment, comment, joinable, claim, -, rfl⟩ := hc
    rfl
  have hword : t.word word terminator = t.declarationWord word terminator := by
    obtain ⟨arguments, run, runComment, comment, joinable, claim, -, rfl⟩ := hc
    rfl
  have hupdate : t.update .startRun = t :=
    congrArg (fun c => ({ base with context := c } : OpenScope)) hstart
  have hnot : ¬((t.context.run.isEmpty && t.node.kind.isRecord &&
      isAccess (withoutColons word)) = true) := by
    intro he
    simp only [Bool.and_eq_true] at he
    exact absurd (haccess he.1.2) (by simp [he.2])
  change base.ListsArguments access earlier head awaited (t.word word terminator)
  rw [hword, declarationWord]
  dsimp only
  rw [if_neg hnot, hupdate, if_neg (by simp [t, hheader])]
  split
  · split
    · exact hdrop
    · exact hadd
  · rw [if_neg (by simp [t, hheader])]
    exact hpush

/-- A comment on the line of the last argument describes it or takes it out. -/
theorem settleClaims (h : base.ListsArguments access none head awaited s) (raw : String)
    {claims : List Claim} (hclaims : s.context.claim = some claims) :
    base.ListsArguments access none head awaited (s.settleClaims raw claims) := by
  obtain ⟨c, rfl, arguments, run, runComment, comment, joinable, claim, hclaim, rfl⟩ := h
  obtain ⟨rfl, hne⟩ : claim = some [.argument] ∧ arguments ≠ [] := by
    obtain rfl | h | rfl := hclaim
    · cases hclaims
    · exact h
    · cases hclaims
  cases hclaims
  obtain ⟨before, last, rfl⟩ := List.eq_nil_or_concat' arguments |>.resolve_left hne
  unfold OpenScope.settleClaims
  split
  · refine ⟨_, rfl, before, run, runComment, comment, false, none, .inl rfl, ?_⟩
    rw [← head.removeLast before last]
    rfl
  · refine ⟨_, rfl, before ++ [last.describe raw], run, runComment, comment, false, none, .inl rfl, ?_⟩
    rw [← head.describeLast before last raw]
    rfl

/-- Any other comment waits in vain for another declaration. -/
theorem takeComment (h : base.ListsArguments access none head awaited s)
    (hrecord : base.node.kind.isRecord = false) (text : String) (line : Bool) :
    base.ListsArguments access none head awaited (s.takeComment text line) := by
  have hnode : s.node.kind.isRecord = false := by
    obtain ⟨c, rfl, -⟩ := h
    exact hrecord
  have hheader : s.context.header.isNone = false := by
    obtain ⟨c, rfl, arguments, run, runComment, comment, joinable, claim, -, rfl⟩ := h
    rfl
  unfold OpenScope.takeComment
  dsimp only
  split
  · exact h
  · split
    · rename_i claims hclaims
      exact h.settleClaims text hclaims
    · rw [if_neg (by simp [hnode]), if_neg (by simp [hheader])]
      exact h.update fun hc => hc.withComment _ line

theorem markInvariant (base : OpenScope) (access : Option String) (earlier : Option (List Claim))
    (head : Header) : MarkInvariant false (OpenScope.ListsArguments base access earlier head) where
  interrupted h := h.update Context.ListsArguments.interrupted
  endLine h := h.update Context.ListsArguments.endLine
  pushMark h text := h.update fun hc => (hc.push text false).1
  pushFragment h text spaced := h.update fun hc => (hc.push text spaced).2.1
  pushIfStarted h text spaced := h.update fun hc => hc.pushIfStarted text spaced
  comma h := h.update Context.ListsArguments.comma
  equals h := h.update Context.ListsArguments.equals
  openParen h := h.update Context.ListsArguments.openParen
  closeParen h := h.update Context.ListsArguments.closeParen
  semicolon := nofun
  openBrace := nofun
  closeBrace := nofun

/-- Outside of records an argument list leaves the tree alone, whatever is in it. -/
theorem invariant (hrecord : base.node.kind.isRecord = false) (access : Option String) (head : Header) :
    Invariant false (OpenScope.ListsArguments base access none head) where
  toMarkInvariant := markInvariant base access none head
  word h word terminator := h.word word terminator fun he => by rw [hrecord] at he; cases he
  takeComment h := h.takeComment hrecord

end OpenScope.ListsArguments

/-! ## Reading an argument list -/

/-- Whether a text can stand between the parentheses of a function: the parentheses in it are
balanced, and there is neither a brace nor a semicolon in its code. -/
def isArgumentList (text : List Char) : Bool :=
  (text.foldlM (Nesting.readIn? false) {}).any (·.isClosed)

/-- Reading the arguments of a function and the parenthesis behind them. -/
theorem State.run_argumentList {tree : Node} (hroot : tree.kind = .root) {head : Header}
    (hopen : head.argumentsOpen = true) {s : State} (hmode : s.mode = .plain)
    (henclosing : s.enclosing = [])
    (hs : OpenScope.ListsArguments (.begin tree .source) none none head [] s.scope) {text : List Char}
    (htext : isArgumentList text = true) :
    ∃ arguments comment claim, s.run (text ++ [')']) =
      { scope := .idle tree
          { comment, claim
            header := some { head.extend arguments with argumentsOpen := false } } } := by
  have hinvariant := OpenScope.ListsArguments.invariant
    (show (OpenScope.begin tree .source).node.kind.isRecord = false by
      rw [show (OpenScope.begin tree .source).node.kind = .root from hroot]; rfl) none head
  obtain ⟨n, hn, hclosed⟩ := (Option.any_eq_true _ _).mp htext
  simp only [Nesting.isClosed, Bool.and_eq_true, Bool.or_eq_true, beq_iff_eq,
    List.isEmpty_iff] at hclosed
  obtain ⟨hlayer, hawaited⟩ := hclosed
  have hin : Inside (OpenScope.ListsArguments (.begin tree .source) none none head) [] {} s :=
    ⟨readsIn_code hmode, henclosing, hs⟩
  obtain ⟨t, hstep, hplain, henclosing', hscope⟩ :=
    (hin.run hinvariant hn).step_bracket hinvariant hlayer (c := ')') (by decide)
  rw [hawaited] at hscope
  obtain ⟨c, hidle, hc⟩ := hscope
  obtain ⟨arguments, comment, claim, hclose⟩ := hc.closeParen_outermost hopen
  refine ⟨arguments, comment, claim, ?_⟩
  rw [State.run_append]
  change (s.run text).step ')' = _
  rw [hstep]
  obtain ⟨mode, scope, enclosing⟩ := t
  cases hplain
  cases henclosing'
  cases hidle
  exact congrArg (fun c => ({ scope := .idle tree c } : State)) hclose

end HeaderDocs.Scan
