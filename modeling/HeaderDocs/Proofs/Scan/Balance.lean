import HeaderDocs.Proofs.Scan.Brackets

/-!
# Open brackets and what they wait for

`Awaits` ties the closing brackets that a text still waits for to what the open contexts count: every
parenthesis and every brace is counted by the innermost context of its time, or has begun a context.

* `State.Reads.run`: reading keeps them tied, as long as the text closes its brackets in the right
  order.
* `State.closed_run`: a balanced text leaves nothing open.
-/
namespace HeaderDocs.Scan

/-- The closing brackets that are awaited, and what the open contexts count, innermost first. -/
inductive Awaits : List Char → List (Nat × Nat) → Prop
  | nothing : Awaits [] [(0, 0)]
  /-- A parenthesis that the innermost context counts. -/
  | paren {awaited : List Char} {braces parens : Nat} {rest : List (Nat × Nat)} :
      Awaits awaited ((braces, parens) :: rest) →
      Awaits (')' :: awaited) ((braces, parens + 1) :: rest)
  /-- A brace that the innermost context counts. -/
  | brace {awaited : List Char} {braces parens : Nat} {rest : List (Nat × Nat)} :
      Awaits awaited ((braces, parens) :: rest) →
      Awaits ('\x7d' :: awaited) ((braces + 1, parens) :: rest)
  /-- A brace that has begun a context. -/
  | block {awaited : List Char} {brackets : List (Nat × Nat)} :
      Awaits awaited brackets → Awaits ('\x7d' :: awaited) ((0, 0) :: brackets)

theorem Awaits.ne_nil {awaited : List Char} {brackets : List (Nat × Nat)}
    (h : Awaits awaited brackets) : brackets ≠ [] := by
  cases h <;> exact List.cons_ne_nil _ _

theorem Awaits.brace_open {awaited : List Char} {brackets : List (Nat × Nat)}
    (h : Awaits ('\x7d' :: awaited) brackets) (parens : Nat) : brackets ≠ [(0, parens)] := by
  rintro rfl
  cases h with
  | block h => exact h.ne_nil rfl

namespace State

variable {s t : State}

/-- The brackets that all open contexts count, innermost first. -/
def brackets (s : State) : List (Nat × Nat) := (s.scope :: s.enclosing).flatMap (·.brackets)

theorem brackets_eq (s : State) :
    s.brackets = s.scope.context.brackets ::
      (s.scope.suspended.map (·.brackets) ++ s.enclosing.flatMap (·.brackets)) := rfl

theorem SameBrackets.brackets (h : SameBrackets s t) : t.brackets = s.brackets := by
  have hscope : t.scope.brackets = s.scope.brackets := s.scope.brackets_of_skeleton h.scope
  simp only [State.brackets, List.flatMap_cons, hscope, h.enclosing]

/-! ## Marks -/

theorem brackets_update {f : Context → Context} {g : Nat × Nat → Nat × Nat}
    (hf : (f s.scope.context).brackets = g s.scope.context.brackets) {counted : Nat × Nat}
    {rest : List (Nat × Nat)} (h : s.brackets = counted :: rest) :
    (s.update (·.update f)).brackets = g counted :: rest := by
  rw [brackets_eq] at h ⊢
  obtain ⟨rfl, hrest⟩ := List.cons.inj h
  exact congrArg₂ List.cons hf hrest

theorem brackets_openBlock {f : OpenScope → OpenScope}
    (hf : (f s.scope).skeleton = s.scope.skeleton) {braces parens : Nat}
    {rest : List (Nat × Nat)} (h : s.brackets = (braces, parens) :: rest) :
    (s.openBlock f).brackets = (braces + 1, parens) :: rest := by
  have hsame : (s.update f).brackets = (braces, parens) :: rest :=
    (sameBrackets_update hf).brackets.trans h
  exact brackets_update (s := s.update f) (g := fun b => (b.1 + 1, b.2)) rfl hsame

theorem brackets_push {outer : OpenScope} (h : outer.skeleton = s.scope.skeleton)
    (node : Node) (origin : Origin) :
    (State.push node origin { s with scope := outer }).brackets = (0, 0) :: s.brackets :=
  congrArg ((0, 0) :: ·) (SameBrackets.brackets (s := s) (t := { s with scope := outer }) ⟨h, rfl⟩)

theorem brackets_openBrace {braces parens : Nat} {rest : List (Nat × Nat)}
    (h : s.brackets = (braces, parens) :: rest) :
    s.openBrace.brackets = (braces + 1, parens) :: rest ∨
      s.openBrace.brackets = (0, 0) :: s.brackets := by
  refine s.openBrace_cases ?header ?record ?nameSpace ?enumeration ?linkage ?block
  case header =>
    exact fun head _ => .inl (brackets_openBlock (s.scope.skeleton_commitHeader head) h)
  case record =>
    intro kind _
    rw [openRecord_eq]
    exact .inr (brackets_push (skeleton_beginRecord kind _ _ s.scope) _ _)
  case nameSpace =>
    intro name rest _
    rw [openNameSpace_eq]
    exact .inr (brackets_push (skeleton_beginNameSpace name s.scope) _ _)
  case enumeration => exact .inl (brackets_openBlock (skeleton_openEnumeration _ _ _) h)
  case linkage => exact .inr rfl
  case block => exact .inl (brackets_openBlock (s.scope.skeleton_update rfl) h)

theorem brackets_closeBrace_counted {braces parens : Nat} {rest : List (Nat × Nat)}
    (h : s.brackets = (braces + 1, parens) :: rest) :
    s.closeBrace.brackets = (braces, parens) :: rest := by
  have hcounted : s.scope.context.braces = braces + 1 := congrArg Prod.fst (List.cons.inj h).1
  rw [closeBrace_eq, if_pos (by omega)]
  exact brackets_update (g := fun b => (b.1 - 1, b.2)) s.scope.context.brackets_afterBlock h

/-- The brace that ends a context leaves those around it. -/
theorem brackets_closeBrace_block {parens : Nat} {rest : List (Nat × Nat)} (hne : rest ≠ [])
    (h : s.brackets = (0, parens) :: rest) : s.closeBrace.brackets = rest := by
  have hcounted : s.scope.context.braces = 0 := congrArg Prod.fst (List.cons.inj h).1
  rw [closeBrace_eq, if_neg (by omega)]
  rw [brackets_eq] at h
  have hrest := (List.cons.inj h).2
  unfold State.pop
  split
  · rename_i context suspended hsuspended
    have hsuspended : s.scope.suspended = context :: suspended := hsuspended
    rw [← hrest, hsuspended]
    rfl
  · rename_i outer enclosing hsuspended henclosing
    have hsuspended : s.scope.suspended = [] := hsuspended
    have henclosing : s.enclosing = outer :: enclosing := henclosing
    rw [← hrest, hsuspended, henclosing]
    exact SameBrackets.brackets (s := { s with scope := outer, enclosing })
      ⟨skeleton_putBack _ outer, rfl⟩
  · rename_i hsuspended henclosing
    have hsuspended : s.scope.suspended = [] := hsuspended
    have henclosing : s.enclosing = [] := henclosing
    rw [hsuspended, henclosing] at hrest
    exact absurd hrest.symm hne

/-! ## Characters -/

theorem awaits_mark {awaited awaited' : List Char} {brackets : List (Nat × Nat)}
    (h : Awaits awaited brackets) (hs : s.brackets = brackets) {c : Char}
    (hc : Nesting.bracket? awaited c = some awaited') : Awaits awaited' (s.mark c).brackets := by
  by_cases hbracket : isBracket c = false
  · rw [(s.sameBrackets_mark hbracket).brackets, hs]
    simp only [isBracket, Bool.or_eq_false_iff] at hbracket
    simp only [Nesting.bracket?, hbracket, Bool.or_false, Bool.false_eq_true, if_false] at hc
    cases hc
    exact h
  simp only [isBracket, Bool.not_eq_false, Bool.or_eq_true, beq_iff_eq] at hbracket
  obtain ⟨⟨braces, parens⟩, rest, rfl⟩ := List.exists_cons_of_ne_nil h.ne_nil
  obtain ((rfl | rfl) | rfl) | rfl := hbracket
  · cases hc
    change Awaits _ s.openBrace.brackets
    obtain hopen | hopen := brackets_openBrace hs
    · rw [hopen]
      exact .brace h
    · rw [hopen, hs]
      exact .block h
  · change Awaits _ s.closeBrace.brackets
    cases h with
    | nothing => cases hc
    | paren => cases hc
    | brace hrest =>
      cases hc
      rw [brackets_closeBrace_counted hs]
      exact hrest
    | block hrest =>
      cases hc
      rw [brackets_closeBrace_block hrest.ne_nil hs]
      exact hrest
  · cases hc
    change Awaits _ (s.update (·.update .openParen)).brackets
    rw [brackets_update (g := fun b => (b.1, b.2 + 1)) s.scope.context.brackets_openParen hs]
    exact .paren h
  · change Awaits _ (s.update (·.update .closeParen)).brackets
    rw [brackets_update (g := fun b => (b.1, b.2 - 1)) s.scope.context.brackets_closeParen hs]
    cases h with
    | nothing => cases hc
    | brace => cases hc
    | block => cases hc
    | paren hrest =>
      cases hc
      exact hrest

/-- The brackets that are open in a state are those that a text still waits for. -/
structure Reads (n : Nesting) (s : State) : Prop where
  layer : s.ReadsIn n.layer
  awaits : Awaits n.awaited s.brackets

theorem reads_start (tree : Node) : Reads {} (State.start tree) := ⟨readsIn_code rfl, .nothing⟩

theorem Reads.step {n n' : Nesting} (h : Reads n s) {c : Char} (hc : n.read? c = some n') :
    Reads n' (s.step c) := by
  obtain ⟨awaited, hawaited, rfl⟩ := Option.map_eq_some_iff.mp hc
  refine ⟨layer_step h.layer c, ?_⟩
  have hlayer : s.mode.layer = n.layer := h.layer.1
  split at hawaited
  · rename_i hcode
    cases step_of_code (hlayer ▸ hcode) with
    | mark before after => exact after ▸ awaits_mark h.awaits before.brackets hawaited
    | other hbracket same =>
      simp only [isBracket, Bool.or_eq_false_iff] at hbracket
      simp only [Nesting.bracket?, hbracket, Bool.or_false, Bool.false_eq_true, if_false] at hawaited
      cases hawaited
      exact same.brackets ▸ h.awaits
  · rename_i hcode
    cases hawaited
    exact (sameBrackets_step (hlayer ▸ Bool.eq_false_iff.mpr hcode)).brackets ▸ h.awaits

theorem Reads.brace_open {n n' : Nesting} (h : Reads n s) (hc : n.read? '\x7d' = some n')
    (hcode : s.mode.layer.isCode '\x7d' = true) (parens : Nat) : s.brackets ≠ [(0, parens)] := by
  obtain ⟨awaited, hawaited, rfl⟩ := Option.map_eq_some_iff.mp hc
  rw [if_pos (h.layer.1 ▸ hcode)] at hawaited
  have hawaits := h.awaits
  cases hn : n.awaited with
  | nil =>
    rw [hn] at hawaited
    cases hawaited
  | cons d rest =>
    rw [hn] at hawaited hawaits
    by_cases hd : d = '\x7d'
    · subst hd
      exact hawaits.brace_open parens
    · simp [Nesting.bracket?, Ne.symm hd] at hawaited

theorem Reads.run {n n' : Nesting} (h : Reads n s) {text : List Char}
    (ht : text.foldlM Nesting.read? n = some n') : Reads n' (s.run text) :=
  run_beside (P := Reads) (fun h hc => h.step hc) h ht

/-! ## Balanced texts -/

structure Closed (s : State) : Prop where
  enclosing : s.enclosing = []
  suspended : s.scope.suspended = []
  braces : s.scope.context.braces = 0
  parens : s.scope.context.parens = 0

theorem closed_of_brackets (h : s.brackets = [(0, 0)]) : s.Closed := by
  rw [brackets_eq, List.cons.injEq, List.append_eq_nil_iff] at h
  obtain ⟨hcounted, hsuspended, henclosing⟩ := h
  refine ⟨?_, List.map_eq_nil_iff.mp hsuspended, congrArg Prod.fst hcounted,
    congrArg Prod.snd hcounted⟩
  cases hs : s.enclosing with
  | nil => rfl
  | cons outer enclosing =>
    rw [hs] at henclosing
    cases henclosing

/-- A balanced text leaves nothing open. -/
theorem closed_run (tree : Node) {text : List Char} (h : isBalanced text = true) :
    ((State.start tree).run text).Closed := by
  obtain ⟨⟨layer, awaited⟩, hn, -, rfl⟩ := isBalanced_iff.mp h
  have hawaits := ((reads_start tree).run hn).awaits
  generalize hb : ((State.start tree).run text).brackets = brackets at hawaits
  cases hawaits
  exact closed_of_brackets hb

end State

end HeaderDocs.Scan
