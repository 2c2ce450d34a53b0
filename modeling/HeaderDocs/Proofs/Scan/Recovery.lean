import HeaderDocs.Proofs.Scan.Splitting

/-!
# What a semicolon leaves behind

Whatever has been read of a declaration, a semicolon outside of braces ends it: no function, no run of
fragments and no shared words are left. But an open parenthesis stays open, and as long as one does, the
variables after it are taken for something in parentheses, and are lost.

* `State.parens_semicolon`: a semicolon leaves the parentheses as they are.
* `scan_recovers`: without an open parenthesis, the rest of a source is read as if it began there.
* `not_scan_recovers_paren`: with one, a later declaration is lost.
-/
namespace HeaderDocs.Scan

namespace State

variable {s : State}

theorem sameBrackets_semicolon (h : s.mode.layer.isCode ';' = true) : SameBrackets s (s.step ';') := by
  cases step_of_code h with
  | mark before after => exact after ▸ before.trans (sameBrackets_mark _ (by decide))
  | other _ same => exact same

theorem brackets_semicolon (h : s.mode.layer.isCode ';' = true) :
    (s.step ';').scope.context.brackets = s.scope.context.brackets := by
  have hbrackets := OpenScope.brackets_of_skeleton _ (sameBrackets_semicolon h).scope
  exact (List.cons.inj hbrackets).1

theorem parens_semicolon (h : s.mode.layer.isCode ';' = true) :
    (s.step ';').scope.context.parens = s.scope.context.parens :=
  congrArg Prod.snd (brackets_semicolon h)

theorem suspended_semicolon (h : s.mode.layer.isCode ';' = true) (hnone : s.scope.suspended = []) :
    (s.step ';').scope.suspended = [] := by
  have hbrackets := OpenScope.brackets_of_skeleton _ (sameBrackets_semicolon h).scope
  have hsuspended := (List.cons.inj hbrackets).2
  rw [hnone] at hsuspended
  exact List.map_eq_nil_iff.mp hsuspended

theorem step_newline_of_plain (h : s.mode = .plain) :
    s.step '\n' = s.update (·.update ({ · with claim := none, joinable := false })) := by
  obtain ⟨mode, scope, enclosing⟩ := s
  cases h
  rfl

variable {tree : Node} {text : List Char}

/-- Outside of braces a semicolon ends everything but the open parentheses. -/
theorem context_semicolon (hcode : ((start tree).run text).mode.layer.isCode ';' = true)
    (hbraces : ((start tree).run text).scope.context.braces = 0) :
    (((start tree).run text).step ';').scope.context =
      { access := (((start tree).run text).step ';').scope.context.access
        parens := ((start tree).run text).scope.context.parens
        comment := (((start tree).run text).step ';').scope.context.comment
        joinable := (((start tree).run text).step ';').scope.context.joinable
        claim := (((start tree).run text).step ';').scope.context.claim } := by
  have hsame : (((start tree).run text).step ';').scope.context.braces = 0 :=
    (congrArg Prod.fst (brackets_semicolon hcode)).trans hbraces
  have htidy : (((start tree).run text).step ';').scope.context.inValue = false := by
    have hrun := tidy_run tree (text ++ [';'])
    rw [run_append] at hrun
    exact hrun.scope.context.inValue hsame
  have hparens := parens_semicolon hcode
  obtain ⟨u, hu⟩ := step_semicolon hcode
  rw [hu] at hsame htidy hparens ⊢
  rw [← hparens]
  exact u.context_semicolon hsame htidy

/-- At the end of the line nothing but an access and a comment is left of a source that has no open
brackets. -/
theorem run_recovered (hcode : ((start tree).run text).mode.layer.isCode ';' = true)
    (hclosed : ((start tree).run text).Closed) :
    ∃ scope : OpenScope, (start tree).run (text ++ [';', '\n']) = { scope } ∧
      scope.origin = .source ∧ scope.suspended = [] ∧
      scope.context =
        { access := (((start tree).run text).step ';').scope.context.access
          comment := (((start tree).run text).step ';').scope.context.comment } := by
  have hcontext := context_semicolon hcode hclosed.braces
  have hsuspended := suspended_semicolon hcode hclosed.suspended
  have hrooted := (rooted_run tree text).same (sameBrackets_semicolon hcode)
  obtain ⟨u, hu⟩ := step_semicolon hcode
  have hrun : (start tree).run (text ++ [';', '\n']) =
      (((start tree).run text).step ';').step '\n' := run_append ..
  rw [hclosed.parens] at hcontext
  rw [hclosed.enclosing] at hu
  rw [hrun]
  rw [hu] at hcontext hsuspended hrooted ⊢
  refine ⟨_, step_newline_of_plain rfl, hrooted.2.1, hsuspended, ?_⟩
  exact congrArg (fun c : Context => { c with claim := none, joinable := false }) hcontext

end State

/-- A semicolon of the code outside of braces, wherever it is read: the declaration has ended, the enclosing
scopes are untouched, and all that is left in the context is the access, the open parentheses, the comment
that waits and what a comment on the same line describes. In the scope of the source, if no parenthesis is
open, the rest of the source is read into the tree so far as if it began there, with the access and the
comment. -/
theorem scan_recovers (tree : Node) (before : String)
    (hcode : ((State.start tree).run before.toList).mode.layer.isCode ';' = true)
    (hbraces : ((State.start tree).run before.toList).scope.context.braces = 0) :
    let s := (State.start tree).run before.toList
    let t := s.step ';'
    (t.mode = .plain ∧ t.enclosing = s.enclosing ∧
      t.scope.context =
        { access := t.scope.context.access
          parens := s.scope.context.parens
          comment := t.scope.context.comment
          joinable := t.scope.context.joinable
          claim := t.scope.context.claim }) ∧
    (s.enclosing = [] → s.scope.suspended = [] → s.scope.context.parens = 0 → ∀ after : String,
      scan (before ++ ";\n" ++ after) tree =
        ((State.resume (scan (before ++ ";\n") tree) t.scope.context.access
          t.scope.context.comment).run after.toList).result.node) := by
  intro s t
  obtain ⟨u, hu⟩ : ∃ u : OpenScope, t = { scope := u.semicolon, enclosing := s.enclosing } :=
    State.step_semicolon hcode
  refine ⟨⟨?_, ?_, State.context_semicolon hcode hbraces⟩, ?_⟩
  · rw [hu]
  · rw [hu]
  · intro henclosing hsuspended hparens after
    obtain ⟨scope, hrun, horigin, hsuspended, hcontext⟩ :=
      State.run_recovered hcode ⟨henclosing, hsuspended, hbraces, hparens⟩
    have hrun : (State.start tree).run (before ++ ";\n").toList = { scope } := by
      rw [String.toList_append]
      exact hrun
    have hscanned : scan (before ++ ";\n") tree = scope.node := by
      unfold scan scanWithEvents
      rw [hrun]
      rfl
    rw [scan_append, hrun, hscanned]
    exact State.result_resume horigin hcontext hsuspended after

/-- A declaration that nothing can be made of, with a stray parenthesis. -/
theorem scan_recovers_stray :
    scan ("int ) f[ * , = g" ++ ";\n" ++ "int x;") .empty =
      ((State.resume (scan ("int ) f[ * , = g" ++ ";\n") .empty) none none).run
        "int x;".toList).result.node := by
  have hrecovers := (scan_recovers .empty "int ) f[ * , = g" (by decide +kernel) (by decide +kernel)).2
    (List.isEmpty_iff.mp (by decide +kernel)) (List.isEmpty_iff.mp (by decide +kernel))
    (by decide +kernel) "int x;"
  have haccess : (((State.start .empty).run "int ) f[ * , = g".toList).step ';').scope.context.access =
      none := by
    decide +kernel
  have hcomment : (((State.start .empty).run "int ) f[ * , = g".toList).step ';').scope.context.comment =
      none := by
    decide +kernel
  rwa [haccess, hcomment] at hrecovers

/-- Two spellings of one prototype open a parenthesis each, and one closes. The semicolon leaves the other
one open, and the variable after it is lost. -/
theorem not_scan_recovers_paren :
    let before := "#if A\nint f(int a,\n#else\nint f(long a,\n#endif\n  int b)"
    let s := (State.start .empty).run before.toList
    s.mode.layer.isCode ';' = true ∧ s.scope.context.braces = 0 ∧
      (s.step ';').scope.context.parens = 1 ∧
      (scan (before ++ ";\nint x;\n") .empty).children.map (·.name) = [some "f"] ∧
      (scan "int x;\n" .empty).children.map (·.name) = [some "x"] := by
  decide +kernel

end HeaderDocs.Scan
