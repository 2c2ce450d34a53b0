import HeaderDocs.Proofs.Scan.Variable

/-!
# Names for types

`typedef` ends in a name: a word directly before a comma or a semicolon, or what the semicolon finds
in the run. The name is recorded with the rest of the run as its type.

* `word_alias`, `step_semicolon_alias`: the two ends.
* `aliasIndex_pointer`: where the name of a pointer to functions stands.
-/
namespace HeaderDocs.Scan

open HeaderDocs.Text

variable {s : OpenScope} {parens : Nat} {run : Run} {claim : Option (List Claim)}

def aliasNode (name : String) (type : Run) : Node :=
  { (Node.ofName .typeAlias name) with children := [type.closeUp.toType] }

theorem declareAlias_plain (s : OpenScope) (parens : Nat) (run : Run) (claim : Option (List Claim))
    (name : String) (type : Run) :
    ∃ s' : OpenScope, s'.node = record s.node (aliasNode name type) ∧ ∃ claim',
      ({ s with context := { parens, run, claim } } : OpenScope).declareAlias name type =
        { s' with context := { parens, claim := claim' } } := by
  let t := ({ s with context := { parens, claim } } : OpenScope).commit (aliasNode name type)
  obtain ⟨claim', hcontext⟩ : ∃ claim', t.1.context = { parens, claim := claim' } :=
    context_commit rfl rfl rfl (aliasNode name type)
  refine ⟨t.1, node_commit _, OpenScope.claimOn t.2, ?_⟩
  have hdeclare :
      ({ s with context := { parens, run, claim } } : OpenScope).declareAlias name type =
        t.1.update ({ · with claim := OpenScope.claimOn t.2 }) := rfl
  rw [hdeclare, OpenScope.update, hcontext]

/-- A word directly before a comma or a semicolon is taken for the name that `typedef` declares. -/
theorem word_alias (hroot : s.node.kind = .root) (halias : run.texts.head? = some "typedef")
    {d : Char} (hd : d ∈ [',', ';']) (word : String) :
    ∃ s' : OpenScope, s'.node = record s.node (aliasNode word (run.drop 1)) ∧ ∃ claim',
      ({ s with context := { parens, run, claim } } : OpenScope).word word d =
        { s' with context := { parens, claim := claim' } } := by
  obtain ⟨f, fs, rfl⟩ : ∃ f fs, run = f :: fs := by
    cases run with
    | nil => cases halias
    | cons f fs => exact ⟨f, fs, rfl⟩
  have hf : f.text = "typedef" := Option.some.inj halias
  have hstart : ({ parens, run := f :: fs, claim } : Context).startRun =
      { parens, run := f :: fs, claim } := rfl
  obtain ⟨s', hnode, claim', hdeclare⟩ := declareAlias_plain s parens (f :: fs) claim word fs
  refine ⟨s', hnode, claim', ?_⟩
  rw [← hdeclare]
  have hrecord : s.node.kind.isRecord = false := by rw [hroot]; rfl
  have hmark : d ≠ '(' ∧ (d = ';' ∨ d = ',') := by
    rcases List.mem_cons.mp hd with rfl | hd
    · decide
    · rw [List.mem_singleton.mp hd]
      decide
  unfold OpenScope.word
  rw [if_pos (by exact rfl)]
  unfold OpenScope.declarationWord
  rw [if_neg (by simp [hrecord])]
  simp only [OpenScope.update, hstart]
  rw [if_neg (by simp [hmark.1]), if_neg (by simp [Context.inArguments]),
    if_pos (by simpa using hmark.2)]
  simp [OpenScope.endDeclarator, Run.texts, hf]

/-! ## The name in the middle -/

/-- In a function pointer the name stands behind the star of the first parenthesis. -/
theorem aliasIndex_pointer {before : List String} (hbefore : "(" ∉ before) {first name : String}
    (hname : name ≠ "*") {after : List String} {run : Run}
    (hrun : run.texts = first :: (before ++ "(" :: "*" :: name :: after)) :
    OpenScope.aliasIndex run = before.length + 3 := by
  have hfind :
      (before ++ "(" :: "*" :: name :: after).findIdx? (· == "(") = some before.length := by
    rw [List.findIdx?_append, List.findIdx?_eq_none_iff.mpr fun text ht => by
      simpa using fun he : text = "(" => hbefore (he ▸ ht)]
    simp [List.findIdx?_cons]
  have hdrop : (first :: (before ++ "(" :: "*" :: name :: after)).drop (before.length + 2) =
      "*" :: name :: after := by
    rw [List.drop_succ_cons, ← List.singleton_append (l := "*" :: name :: after),
      ← List.append_assoc, List.drop_left' (by simp)]
  have hget :
      (first :: (before ++ "(" :: "*" :: name :: after))[before.length + 2]? = some "*" := by
    rw [← List.head?_drop, hdrop]
    rfl
  have hlength : (first :: (before ++ "(" :: "*" :: name :: after)).length =
      before.length + 4 + after.length := by
    simp only [List.length_cons, List.length_append]
    omega
  unfold OpenScope.aliasIndex
  rw [hrun]
  simp only [List.drop_succ_cons, List.drop_zero, hfind]
  rw [hget, if_pos (by simp), ← List.drop_succ_cons (a := first), hdrop, hlength]
  simp [hname]

theorem step_semicolon_alias (halias : run.texts.head? = some "typedef") {name : Fragment}
    (hname : run[OpenScope.aliasIndex run]? = some name)
    (hpos : OpenScope.aliasIndex run ≠ 0) :
    ∃ s' : OpenScope, ∃ claim',
      s'.node = record s.node
        (aliasNode name.text ((run.eraseIdx (OpenScope.aliasIndex run)).drop 1)) ∧
      (State.reading s { parens, run, claim }).step ';' =
        State.reading s' { parens, claim := claim' } := by
  obtain ⟨s', hnode, claim', hdeclare⟩ := declareAlias_plain s parens run claim name.text
    ((run.eraseIdx (OpenScope.aliasIndex run)).drop 1)
  refine ⟨s', claim', hnode, ?_⟩
  have hend : ({ s with context := { parens, run, claim } } : OpenScope).endHeader.endRun =
      { s' with context := { parens, claim := claim' } } := by
    unfold OpenScope.endHeader OpenScope.endRun OpenScope.finishAlias
    dsimp only
    rw [if_pos (by simpa using halias), hname]
    dsimp only
    rw [if_neg (by simpa using hpos)]
    exact hdeclare
  change ({ scope := ({ s with context := { parens, run, claim } } : OpenScope).semicolon } :
    State) = _
  unfold OpenScope.semicolon
  rw [hend]
  rfl

/-! ## What is recorded -/

theorem record_empty {n : Node} (hpublic : n.isPrivate = false) {name : String}
    (hname : n.name = some name) (hrecordable : Node.isRecordable name = true) :
    record .empty n = Node.empty.withChildren [n] :=
  record_new hpublic hname hrecordable (by simp [Node.empty])

theorem eq_of_record_empty {m n : Node} {name : String} (hname : m.name = some name)
    (hpublic : m.isPrivate = false) (h : (record .empty m).children = [n]) : n = m := by
  cases hrecordable : Node.isRecordable name with
  | true =>
    rw [record_empty hpublic hname hrecordable] at h
    exact (List.cons.inj h).1.symm
  | false =>
    rw [record_of_not_recordable hname hrecordable] at h
    cases h

theorem isPrivate_aliasNode (name : String) (type : Run) :
    (aliasNode name type).isPrivate = false :=
  (by decide +kernel : Comment.isPrivate "" = false)

theorem typeText_aliasNode (name : String) (type : Run) :
    (aliasNode name type).typeText = Run.text type := by
  have hclose : Run.text type.closeUp = Run.text type := by
    cases type <;> rfl
  rw [← hclose, ← Run.text_toType]
  rfl

end HeaderDocs.Scan
