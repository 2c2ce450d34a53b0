import HeaderDocs.Proofs.Scan.HostedSources
import HeaderDocs.Proofs.Scan.Tidy

/-!
# Sources can be split between declarations

After a semicolon that ends a declaration, and the end of its line, a balanced text leaves nothing behind
but a comment that waits for its declaration: every other thing that the outermost context knows is as
in a new one. So what comes next is read as if it were a source of its own.

* `OpenScope.Bare`: outside of records, nothing is known about the access of members.
* `State.run_boundary`: what is left behind.
* `scan_append_of_endsDeclaration`: reading the two parts one after the other.
-/
namespace HeaderDocs.Scan

open HeaderDocs.Node

/-! ## Access -/

namespace OpenScope

/-- Unless the scope is a record, its members have no access. -/
def Bare (s : OpenScope) : Prop :=
  s.node.kind.isRecord = false → ∀ c ∈ s.context :: s.suspended, c.access = none

variable {s t : OpenScope}

theorem Bare.of_contexts (h : s.Bare) (hk : t.node.kind = s.node.kind)
    (hc : ∀ c ∈ t.context :: t.suspended, ∃ d ∈ s.context :: s.suspended, c.access = d.access) :
    t.Bare := by
  intro hrecord c hmem
  obtain ⟨d, hd, he⟩ := hc c hmem
  exact he.trans (h (hk ▸ hrecord) d hd)

theorem Bare.of_skeleton (h : s.Bare) (he : t.skeleton = s.skeleton) : t.Bare := by
  have hk : t.node.kind = s.node.kind := congrArg (·.2.1) he
  intro hrecord c hmem
  have hs : s.node.kind.isRecord = false := hk ▸ hrecord
  have hcontexts : (t.context :: t.suspended).map (fun c => (c.brackets, c.access)) =
      (s.context :: s.suspended).map fun c => (c.brackets, c.access) := by
    have hskeleton := congrArg (·.2.2) he
    simpa only [skeleton, hrecord, hs, Bool.false_eq_true, if_false] using hskeleton
  obtain ⟨d, hd, hcd⟩ := List.mem_map.mp (hcontexts ▸ List.mem_map_of_mem hmem)
  exact (congrArg Prod.snd hcd).symm.trans (h hs d hd)

theorem bare_begin (node : Node) (origin : Origin) : (begin node origin).Bare := by
  intro hrecord c hmem
  rw [List.mem_singleton.mp hmem]
  change (if node.kind == .classType then some "private" else none) = none
  rw [if_neg]
  intro hclass
  rw [show (begin node origin).node.kind = .classType from eq_of_beq hclass] at hrecord
  cases hrecord

/-- The open scopes, from the innermost one out. The last one is the scope of the source. -/
def Rooted (kind : Kind) : OpenScope → List OpenScope → Prop
  | s, [] => s.Bare ∧ s.origin = .source ∧ s.node.kind = kind
  | s, outer :: enclosing => s.Bare ∧ Rooted kind outer enclosing

variable {kind : Kind} {enclosing : List OpenScope}

theorem Rooted.bare (h : Rooted kind s enclosing) : s.Bare := by
  cases enclosing with
  | nil => exact h.1
  | cons outer enclosing => exact h.1

theorem Rooted.change (h : Rooted kind s enclosing) (ht : t.Bare) (ho : t.origin = s.origin)
    (hk : t.node.kind = s.node.kind) : Rooted kind t enclosing := by
  cases enclosing with
  | nil => exact ⟨ht, ho.trans h.2.1, hk.trans h.2.2⟩
  | cons outer enclosing => exact ⟨ht, h.2⟩

theorem Rooted.of_skeleton (h : Rooted kind s enclosing) (he : t.skeleton = s.skeleton) :
    Rooted kind t enclosing :=
  h.change (h.bare.of_skeleton he) (congrArg Prod.fst he) (congrArg (·.2.1) he)

end OpenScope

namespace State

open OpenScope

variable {s t : State} {kind : Kind}

/-- The scopes that are open in a state. -/
def Rooted (kind : Kind) (s : State) : Prop := OpenScope.Rooted kind s.scope s.enclosing

theorem Rooted.same (h : s.Rooted kind) (hs : SameBrackets s t) : t.Rooted kind := by
  have hskeleton := OpenScope.Rooted.of_skeleton h hs.scope
  rwa [← hs.enclosing] at hskeleton

/-- A change of the innermost context that leaves its access. -/
theorem Rooted.updateContext (h : s.Rooted kind) {f : Context → Context}
    (hf : (f s.scope.context).access = s.scope.context.access) :
    (s.update (·.update f)).Rooted kind := by
  refine OpenScope.Rooted.change h (h.bare.of_contexts rfl fun c hc => ?_) rfl rfl
  rcases List.mem_cons.mp hc with rfl | hc
  · exact ⟨_, List.mem_cons_self .., hf⟩
  · exact ⟨c, List.mem_cons_of_mem _ hc, rfl⟩

theorem Rooted.push (h : s.Rooted kind) {outer : OpenScope}
    (ho : outer.skeleton = s.scope.skeleton) (node : Node) (origin : Origin) :
    (State.push node origin { s with scope := outer }).Rooted kind :=
  ⟨bare_begin node origin, OpenScope.Rooted.of_skeleton h ho⟩

theorem Rooted.openBlock (h : s.Rooted kind) {f : OpenScope → OpenScope}
    (hf : (f s.scope).skeleton = s.scope.skeleton) : (s.openBlock f).Rooted kind :=
  Rooted.updateContext (s := s.update f) (h.same (sameBrackets_update hf)) rfl

theorem Rooted.openBrace (h : s.Rooted kind) : s.openBrace.Rooted kind := by
  refine s.openBrace_cases ?header ?record ?nameSpace ?enumeration ?linkage ?block
  case header => exact fun head _ => h.openBlock (s.scope.skeleton_commitHeader head)
  case record =>
    intro kind' _
    rw [openRecord_eq]
    exact h.push (skeleton_beginRecord _ _ _ s.scope) _ _
  case nameSpace =>
    intro name rest _
    rw [openNameSpace_eq]
    exact h.push (skeleton_beginNameSpace name s.scope) _ _
  case enumeration => exact h.openBlock (skeleton_openEnumeration _ _ _)
  case linkage =>
    -- a linkage block declares into the same scope
    refine OpenScope.Rooted.change h (fun hrecord c hc => ?_) rfl rfl
    rcases List.mem_cons.mp hc with rfl | hc
    · exact bare_begin s.scope.node .source hrecord _ (List.mem_cons_self ..)
    · rcases List.mem_cons.mp hc with rfl | hc
      · exact h.bare hrecord s.scope.context (List.mem_cons_self ..)
      · exact h.bare hrecord c (List.mem_cons_of_mem _ hc)
  case block => exact h.openBlock (s.scope.skeleton_update rfl)

theorem Rooted.closeBrace (h : s.Rooted kind) : s.closeBrace.Rooted kind := by
  rw [closeBrace_eq]
  split
  · exact h.updateContext (congrArg Prod.snd s.scope.context.skeleton_afterBlock)
  · have hafter : (s.update (·.update .afterBody)).Rooted kind := h.updateContext rfl
    generalize s.update (·.update .afterBody) = u at hafter
    unfold State.pop
    split
    · rename_i context suspended hsuspended
      refine OpenScope.Rooted.change hafter (hafter.bare.of_contexts rfl fun c hc => ?_) rfl rfl
      exact ⟨c, List.mem_cons_of_mem _ (hsuspended ▸ hc), rfl⟩
    · rename_i outer enclosing _ henclosing
      have hstack := hafter
      rw [State.Rooted, henclosing] at hstack
      exact OpenScope.Rooted.of_skeleton hstack.2 (skeleton_putBack u.scope outer)
    · exact hafter

theorem Rooted.mark (h : s.Rooted kind) (c : Char) : (s.mark c).Rooted kind := by
  cases hc : isBracket c with
  | false => exact h.same (s.sameBrackets_mark hc)
  | true =>
    simp only [isBracket, Bool.or_eq_true, beq_iff_eq] at hc
    obtain ((rfl | rfl) | rfl) | rfl := hc
    · exact h.openBrace
    · exact h.closeBrace
    · exact h.updateContext (congrArg Prod.snd s.scope.context.skeleton_openParen)
    · exact h.updateContext (congrArg Prod.snd s.scope.context.skeleton_closeParen)

theorem Rooted.step (h : s.Rooted kind) (c : Char) : (s.step c).Rooted kind := by
  cases hcode : s.mode.layer.isCode c with
  | false => exact h.same (sameBrackets_step hcode)
  | true =>
    cases step_of_code hcode with
    | mark before after => exact after ▸ (h.same before).mark c
    | other _ same => exact h.same same

theorem rooted_run (tree : Node) (text : List Char) :
    ((State.start tree).run text).Rooted tree.kind := by
  have hstart : (State.start tree).Rooted tree.kind := ⟨bare_begin tree .source, rfl, rfl⟩
  exact run_keeps (P := Rooted tree.kind) (fun _ c h => h.step c) hstart text

end State

/-! ## The end of a declaration -/

namespace OpenScope

variable {s : OpenScope}

theorem header_commit (h : s.context.header = none) (node : Node) :
    (s.commit node).1.context.header = none :=
  commitTo_context (P := (·.header = none)) h (fun _ _ => Option.map_eq_none_iff.mpr)
    (fun _ _ _ => Option.map_eq_none_iff.mpr) node

theorem header_endRun (h : s.context.header = none) : s.endRun.context.header = none := by
  unfold OpenScope.endRun
  split
  · unfold OpenScope.finishAlias
    dsimp only
    split
    · unfold OpenScope.declareAlias
      exact header_commit (s := s.update fun c => { c.takeComment with run := [] }) h _
    · exact h
  · split
    · unfold OpenScope.declareVariable
      split
      · exact h
      · rename_i d _
        exact header_commit (s := s.update fun c => { c.dropRun.takeComment with
          base := if ';' == ',' then d.type.takeWhile (·.isWord) else [] }) h _
    · exact h

/-- Outside of braces a semicolon leaves nothing behind but a comment and the claims of its line. -/
theorem context_semicolon (h : s.semicolon.context.braces = 0)
    (hvalue : s.semicolon.context.inValue = false) :
    s.semicolon.context =
      { access := s.semicolon.context.access
        parens := s.semicolon.context.parens
        comment := s.semicolon.context.comment
        joinable := s.semicolon.context.joinable
        claim := s.semicolon.context.claim } := by
  have hheader := header_endRun (header_endHeader s)
  revert h hvalue
  unfold OpenScope.semicolon
  simp only [OpenScope.update]
  generalize s.endHeader.endRun.context = c at hheader
  cases hb : c.braces == 0 with
  | true =>
    rw [if_pos (by exact hb)]
    intro _ hvalue
    have hbraces : c.braces = 0 := eq_of_beq hb
    have hvalue : c.inValue = false := hvalue
    simp only [Context.dropRun, hheader, hbraces, hvalue]
  | false =>
    rw [if_neg (by exact fun hc => by simp_all [Context.dropRun])]
    intro h
    exact absurd h (by simpa [Context.dropRun] using hb)

end OpenScope

namespace State

variable {s : State}

theorem plain_semicolon (h : s.mode = .plain) :
    ∃ u : OpenScope, s.plain ';' = { scope := u.semicolon, enclosing := s.enclosing } := by
  refine ⟨s.scope.update ({ · with joinable := false }), ?_⟩
  obtain ⟨mode, scope, enclosing⟩ := s
  cases h
  rfl

theorem step_semicolon (h : s.mode.layer.isCode ';' = true) :
    ∃ u : OpenScope, s.step ';' = { scope := u.semicolon, enclosing := s.enclosing } := by
  have hpart : isWordPart s.scope.context.parens ';' = false := by
    simp [isWordPart]
    decide
  obtain ⟨t, ht, hmode, hstep⟩ := step_of_isCode h hpart
  obtain ⟨u, hu⟩ := plain_semicolon hmode
  refine ⟨u, ?_⟩
  rw [hstep, hu]
  cases ht <;> rfl

theorem isBalanced_boundary {text : List Char} (h : isBalanced text = true) :
    isBalanced (text ++ [';', '\n']) = true := by
  obtain ⟨⟨layer, awaited⟩, hn, hlayer, rfl⟩ := isBalanced_iff.mp h
  refine isBalanced_iff.mpr ⟨{}, ?_, .inl rfl, rfl⟩
  rw [List.foldlM_append, hn]
  obtain rfl | rfl := hlayer <;> rfl

/-- After a declaration that ends with its line, the outermost scope is as at the start of a source,
but for a comment that waits. -/
theorem run_boundary_waiting (tree : Node) {text : List Char} (h : isBalanced text = true)
    (haccess : tree.kind.isRecord = true → ((start tree).run (text ++ [';', '\n'])).scope.context.access =
      (Context.ofScope tree).access) :
    ∃ scope : OpenScope, (start tree).run (text ++ [';', '\n']) = { scope } ∧
      scope.origin = .source ∧
      scope.context = { Context.ofScope scope.node with
        comment := ((start tree).run (text ++ [';', '\n'])).scope.context.comment } ∧
      scope.suspended = [] := by
  obtain ⟨n, hn, hlayer, -⟩ := isBalanced_iff.mp h
  have hcode : ((start tree).run text).mode.layer.isCode ';' = true := by
    rw [((reads_start tree).run hn).layer.1]
    obtain hn | hn := hlayer <;>
    · rw [hn]
      rfl
  obtain ⟨u, hu⟩ := step_semicolon hcode
  have hrun : (start tree).run (text ++ [';', '\n']) =
      { scope := u.semicolon.update ({ · with claim := none, joinable := false })
        enclosing := ((start tree).run text).enclosing } := by
    rw [run_append]
    change (((start tree).run text).step ';').step '\n' = _
    rw [hu]
    rfl
  have hclosed := closed_run tree (isBalanced_boundary h)
  have hrooted := rooted_run tree (text ++ [';', '\n'])
  have htidy := (tidy_run tree (text ++ [';', '\n'])).scope.context
  rw [hrun] at hclosed hrooted htidy haccess ⊢
  obtain ⟨henclosing, hsuspended, hbraces, hparens⟩ := hclosed
  dsimp only at henclosing hsuspended hbraces hparens
  rw [henclosing] at hrooted ⊢
  obtain ⟨hbare, horigin, hkind⟩ := hrooted
  generalize hscope : u.semicolon.update ({ · with claim := none, joinable := false }) = scope at *
  have hnode : (Context.ofScope scope.node).access = (Context.ofScope tree).access := by
    rw [Context.ofScope, Context.ofScope, show scope.node.kind = tree.kind from hkind]
  have hsame : scope.context.access = (Context.ofScope scope.node).access := by
    cases hrecord : tree.kind.isRecord with
    | true => exact (haccess hrecord).trans hnode.symm
    | false =>
      have hrecord : scope.node.kind.isRecord = false := hkind ▸ hrecord
      rw [hbare hrecord _ (List.mem_cons_self ..)]
      exact (OpenScope.bare_begin scope.node .source hrecord _ (List.mem_cons_self ..)).symm
  refine ⟨scope, rfl, horigin, ?_, hsuspended⟩
  have hcontext := u.context_semicolon (by rw [← hscope] at hbraces; exact hbraces)
    (by rw [← hscope] at htidy hbraces; exact htidy.inValue hbraces)
  have hshape : scope.context =
      { access := scope.context.access
        parens := scope.context.parens
        comment := scope.context.comment } := by
    rw [← hscope]
    exact congrArg (fun c : Context => { c with claim := none, joinable := false }) hcontext
  rw [hshape, hsame, hparens]
  rfl

/-- After a declaration that ends with its line, the outermost scope is as at the start of a source. -/
theorem run_boundary (tree : Node) {text : List Char} (h : isBalanced text = true)
    (hcomment : ((start tree).run (text ++ [';', '\n'])).scope.context.comment = none)
    (haccess : tree.kind.isRecord = true → ((start tree).run (text ++ [';', '\n'])).scope.context.access =
      (Context.ofScope tree).access) :
    ∃ scope : OpenScope, (start tree).run (text ++ [';', '\n']) = { scope } ∧
      scope.origin = .source ∧ scope.context = .ofScope scope.node ∧ scope.suspended = [] := by
  obtain ⟨scope, hrun, horigin, hcontext, hsuspended⟩ := run_boundary_waiting tree h haccess
  exact ⟨scope, hrun, horigin, hcontext.trans (by rw [hcomment]; rfl), hsuspended⟩

/-- A source is read into a tree from where a declaration has ended: its members have an access, and a
comment may wait. -/
def resume (tree : Node) (access comment : Option String) : State :=
  { scope := { OpenScope.begin tree .source with context := { access, comment } } }

/-- What comes after the end of a declaration depends on nothing else that was read before. -/
theorem result_resume {scope : OpenScope} {access comment : Option String}
    (horigin : scope.origin = .source) (hcontext : scope.context = { access, comment })
    (hsuspended : scope.suspended = []) (text : String) :
    (State.run { scope } text.toList).result.node =
      ((resume scope.node access comment).run text.toList).result.node := by
  have hstart : State.Hosted none 0 .source [] { scope } (resume scope.node access comment) := by
    refine ⟨rfl, none, 0, .source ⟨rfl, .inl horigin, ?_, ⟨[], rfl, ?_⟩, Host.fits_none _⟩ horigin⟩
    · exact hcontext.trans (Context.mapIndex_id _).symm
    · exact hsuspended
  obtain ⟨top, count, ht⟩ :=
    (hstart.run text.toList (.inr rfl) (.inl ⟨rfl, rfl⟩)).scopes
  exact ht.unwind.node

/-- What comes after a boundary is read as a source of its own. -/
theorem result_of_boundary {scope : OpenScope} (horigin : scope.origin = .source)
    (hcontext : scope.context = .ofScope scope.node) (hsuspended : scope.suspended = [])
    (text : String) : (State.run { scope } text.toList).result.node = scan text scope.node :=
  result_resume horigin hcontext hsuspended text

end State

/-! ## Two sources -/

/-- The text ends with a declaration: with a semicolon of the code outside of all brackets, and the end
of its line. All that comes before is balanced, and so is the whole text. -/
def EndsDeclaration (text : List Char) : Prop :=
  ∃ before, text = before ++ [';', '\n'] ∧ isBalanced before = true

/-- A source that ends with a declaration, and leaves no comment waiting for the next one, can be read
before the rest of the text or together with it. A tree has an access to hand on only if it is a
record. -/
theorem scan_append_of_endsDeclaration (tree : Node) (first second : String)
    (hends : EndsDeclaration first.toList)
    (hcomment : ((State.start tree).run first.toList).scope.context.comment = none)
    (haccess : tree.kind.isRecord = true →
      ((State.start tree).run first.toList).scope.context.access = (Context.ofScope tree).access) :
    scan (first ++ second) tree = scan second (scan first tree) := by
  obtain ⟨before, hfirst, hbalanced⟩ := hends
  rw [hfirst] at hcomment haccess
  obtain ⟨scope, hrun, horigin, hcontext, hsuspended⟩ :=
    State.run_boundary tree hbalanced hcomment haccess
  have hscanned : scan first tree = scope.node := by
    unfold scan scanWithEvents
    rw [hfirst, hrun]
    rfl
  have hstart : State.Hosted none 0 .source [] { scope } (State.start scope.node) := by
    refine ⟨rfl, none, 0, .source ⟨rfl, .inl horigin, ?_, ⟨[], rfl, ?_⟩, Host.fits_none _⟩ horigin⟩
    · exact hcontext.trans (Context.mapIndex_id _).symm
    · exact hsuspended
  obtain ⟨top, count, ht⟩ :=
    (hstart.run second.toList (.inr rfl) (.inl ⟨rfl, rfl⟩)).scopes
  rw [scan_append, hfirst, hrun, hscanned]
  exact ht.unwind.node

/-- The text before the split defines a type with two names, and ends in a list of variables. -/
theorem scan_append_of_endsDeclaration_list :
    EndsDeclaration "typedef struct \x7b int x; \x7d s, *p;\nint a, b = 1;\n".toList ∧
      scan ("typedef struct \x7b int x; \x7d s, *p;\nint a, b = 1;\n" ++ "// of g\nint g(void);") .empty =
        scan "// of g\nint g(void);"
          (scan "typedef struct \x7b int x; \x7d s, *p;\nint a, b = 1;\n" .empty) := by
  have hends : EndsDeclaration "typedef struct \x7b int x; \x7d s, *p;\nint a, b = 1;\n".toList :=
    ⟨"typedef struct \x7b int x; \x7d s, *p;\nint a, b = 1".toList, by decide, by decide +kernel⟩
  exact ⟨hends, scan_append_of_endsDeclaration .empty _ _ hends (by decide +kernel) nofun⟩

end HeaderDocs.Scan
