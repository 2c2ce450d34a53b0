import HeaderDocs.Proofs.Scan.Checked.Scopes

/-!
# Nothing is missing in a declaration

What words and semicolons do in a valid scope, in the order of `OpenScope.word` and
`OpenScope.semicolon`. A word that is read is not empty, so no fragment of a run is. A definition
claims only children of the scope, so its claims are on nodes beside each other.

* `Valid.word`, `Valid.semicolon`: the operations find what they use.
-/
namespace HeaderDocs.Scan

open HeaderDocs.Node HeaderDocs.Text

namespace OpenScope

variable {s t : OpenScope}

/-! ## Functions and variables -/

theorem found_recordNamed? {scope : Node} {name : String} {p : Place}
    (h : recordNamed? scope name = some p) : p.Found scope := by
  unfold recordNamed? at h
  split at h
  · rename_i i hi
    cases h
    exact Place.found_inScope.mpr (List.findIdx?_eq_some_iff_getElem.mp hi).1
  · obtain ⟨i, hi, rfl⟩ := Option.map_eq_some_iff.mp h
    exact Place.found_inScope.mpr (List.findIdx?_eq_some_iff_getElem.mp hi).1

/-- While no header is being read, no argument is claimed. -/
theorem Valid.startFunction (h : s.Valid) (word : String) (hheader : s.context.header = none) :
    s.Completes (Checked.startFunction word s) (s.startFunction word) := by
  have hc := h.current
  refine ⟨?_, ?_, ?_⟩
  · unfold Checked.startFunction
    dsimp only
    cases s.context.run with
    | nil => rfl
    | cons f fs =>
      split
      · rfl
      · rw [Checked.lastFragment_eq (List.cons_ne_nil f fs)]
        change (if _ then _ else _) = _
        split <;> rfl
  · unfold OpenScope.startFunction
    dsimp only
    split
    · exact h.update hc.dropRun
    · refine h.update ⟨⟨Run.legible_nil, hc.base, ?_, hc.record, hc.enumeration⟩,
        ⟨hc.apart, hc.braces⟩, ?_⟩
      · rintro _ ⟨⟩ p hp
        dsimp only at hp
        split at hp
        · exact found_recordNamed? hp
        · cases hp
      · intro claim hclaim
        have hfound := hc.found claim hclaim
        cases claim with
        | argument => simp [Context.claimed?, hheader] at hfound
        | recorded path => exact hfound
        | constant i => exact hfound
  · unfold OpenScope.startFunction
    dsimp only
    split <;> rfl

theorem Valid.declareVariable (h : s.Valid) (terminator : Char) :
    s.Completes (Checked.declareVariable terminator s) (s.declareVariable terminator) := by
  have hc := h.current
  unfold Checked.declareVariable OpenScope.declareVariable
  cases hd : Declarator.ofRun? s.context.run with
  | none => exact h.updated hc.dropRun
  | some d =>
    have hcommit := fun (base : Run) (hbase : base.Legible) =>
      (h.update (f := fun c => { c.dropRun.takeComment with base })
        (hc.congr Run.legible_nil hbase rfl)).commitClaimed
          (((d.toNode .var).withScope s.context.access).describeIf s.context.comment)
    dsimp only
    rw [Checked.sharedWords_eq, Checked.describeIf_eq]
    split
    · exact Completes.of_origin (hcommit _ (Run.legible_takeWhile_isWord d.type)) rfl
    · exact Completes.of_origin (hcommit [] Run.legible_nil) rfl

theorem Valid.declareAlias (h : s.Valid) (name : String) (type : Run) :
    s.Completes (Checked.declareAlias name type s) (s.declareAlias name type) := by
  have hc := h.current
  unfold Checked.declareAlias OpenScope.declareAlias
  dsimp only
  rw [Checked.describeIf_eq]
  have hu := h.update (f := fun c => { c.takeComment with run := [] })
    (hc.congr Run.legible_nil hc.base rfl)
  have hr := hu.commitClaimed (((Node.ofName .typeAlias name).withChildren
    [type.closeUp.toType]).describeIf s.context.comment)
  exact ⟨hr.eq, hr.valid, hr.origin⟩

theorem aliasIndex_lt {run : Run} (h : run ≠ []) : aliasIndex run < run.length := by
  have hlength := List.length_pos_iff.mpr h
  unfold aliasIndex
  dsimp only
  split
  · simp [Run.texts]
    omega
  · rename_i i hi
    have hlt := (List.findIdx?_eq_some_iff_getElem.mp hi).1
    simp only [Run.texts, List.length_drop, List.length_map] at hlt ⊢
    split
    · omega
    · split <;> omega

theorem Valid.finishAlias (h : s.Valid) (hrun : s.context.run ≠ []) :
    s.Completes (Checked.finishAlias s) s.finishAlias := by
  obtain ⟨name, hname⟩ : ∃ name, s.context.run[aliasIndex s.context.run]? = some name :=
    ⟨_, List.getElem?_eq_getElem (aliasIndex_lt hrun)⟩
  have hfirst : Checked.firstFragment s.context.run = .ok (s.context.run.head hrun) := by
    rw [Checked.firstFragment, List.head?_eq_some_head hrun]
    rfl
  unfold Checked.finishAlias OpenScope.finishAlias
  dsimp only
  rw [hfirst, Checked.lastFragment_eq hrun, hname]
  exact h.declareAlias _ _

/-! ## Declarators after a definition -/

/-- A node without a name is recorded as a child, or kept aside. -/
theorem Valid.nameAside (h : s.Valid) (name : String) {place : Option Place}
    (hplace : ∀ p, place = some p → p.Found s.node) :
    Checked.nameAside name place s = .ok (s.nameAside name place) ∧
      (s.nameAside name place).1.Valid ∧ (s.nameAside name place).1.origin = s.origin ∧
      ((∀ claim ∈ s.context.claims, claim.OnChild) →
        ∀ claim ∈ (s.nameAside name place).1.context.claims, claim.OnChild) ∧
      ∀ p, (s.nameAside name place).2 = some p → p.Found (s.nameAside name place).1.node := by
  match place with
  | none => exact ⟨rfl, h, rfl, id, hplace⟩
  | some (.inScope i) => exact ⟨rfl, h, rfl, id, hplace⟩
  | some (.aside node) =>
    unfold Checked.nameAside OpenScope.nameAside
    dsimp only
    split
    · have hr := h.commit (node.withName name)
      refine ⟨?_, hr.valid, hr.origin, fun hall => onChild_commit hall _, ?_⟩
      · rw [hr.eq]
        rfl
      · rintro _ ⟨⟩
        exact hr.found_placeOf
    · exact ⟨rfl, h, rfl, id, hplace⟩

theorem Valid.declareAwaited (h : s.Valid) (name : String) (hrun : s.context.run ≠ []) :
    s.Completes (Checked.declareAwaited name s) (s.declareAwaited name) ∧
      ∀ claim ∈ (s.declareAwaited name).context.claims, claim.OnChild := by
  unfold Checked.declareAwaited OpenScope.declareAwaited
  cases s.context.typeAlias with
  | none => exact ⟨h.updated h.current.forgetClaim, nofun⟩
  | some node =>
    dsimp only
    rw [Checked.closeUp_eq hrun]
    have hr := h.commit ((node.withName name).withChildren
      (s.context.run.closeUp.toType :: node.children))
    refine ⟨h.commitClaimed _, fun claim hclaim => ?_⟩
    obtain ⟨path, hpath, rfl⟩ := List.mem_map.mp hclaim
    obtain ⟨i, -, rfl, -⟩ := hr.found path (Option.mem_toList.mp hpath)
    exact ⟨i, rfl⟩

theorem onChild_claimOnPlace {place : Option Place} (hplace : ∀ p, place = some p → p.Found s.node)
    (claim : Claim) (hclaim : claim ∈ claimOnPlace place) :
    ∃ i, claim = .recorded [i] ∧ (s.node.get? [i]).isSome = true := by
  match place with
  | none => cases hclaim
  | some (.aside node) => cases hclaim
  | some (.inScope i) =>
    refine ⟨i, List.mem_singleton.mp hclaim, ?_⟩
    rw [get?_singleton]
    exact hplace _ rfl

theorem Valid.noteRecord (h : s.Valid) {record : Option Place}
    (hplace : ∀ p, record = some p → p.Found s.node) : (s.update ({ · with record })).Valid :=
  have hc := h.context
  ⟨h.toPlaced.update ⟨hc.run, hc.base, hc.home, hplace, hc.enumeration⟩, h.claims.congr rfl⟩

theorem Valid.noteEnumeration (h : s.Valid) {enumeration : Option Place}
    (hplace : ∀ p, enumeration = some p → p.Found s.node)
    (hall : ∀ claim ∈ s.context.claims, claim.OnChild) :
    (s.update ({ · with enumeration })).Valid :=
  have hc := h.context
  ⟨h.toPlaced.update ⟨hc.run, hc.base, hc.home, hc.record, hplace⟩,
    Context.claimsFound_onChild (h.claims.onChild hall)⟩

/-- The type that was defined is claimed with its name, if it has been recorded. -/
theorem Valid.endDefinition (h : s.Valid) (hall : ∀ claim ∈ s.context.claims, claim.OnChild)
    (aliased : Bool) :
    (s.update (·.afterDefinition aliased)).Valid := by
  have hc := h.context
  refine ⟨h.toPlaced.update ⟨Run.legible_nil, hc.base, hc.home, nofun, nofun⟩,
    Context.claimsFound_onChild fun claim hclaim => ?_⟩
  rcases Context.mem_claims_afterDefinition hclaim with hclaim | hclaim | hclaim
  · exact h.claims.onChild hall claim hclaim
  · exact onChild_claimOnPlace hc.record claim hclaim
  · exact onChild_claimOnPlace hc.enumeration claim hclaim

theorem Valid.declareDefined (h : s.Valid) (name : String) (hrun : s.context.run ≠ []) :
    s.Completes (Checked.declareDefined name s) (s.declareDefined name) := by
  obtain ⟨hawaited, hclaims⟩ := h.declareAwaited name hrun
  obtain ⟨hrecord, hrvalid, hrorigin, hrclaims, hrplace⟩ :=
    hawaited.valid.nameAside name hawaited.valid.context.record
  have hr := hrvalid.noteRecord hrplace
  obtain ⟨henumeration, hevalid, heorigin, heclaims, heplace⟩ :=
    hr.nameAside name hr.context.enumeration
  have hall := heclaims (hrclaims hclaims)
  have hend := (hevalid.noteEnumeration heplace hall).endDefinition hall s.context.typeAlias.isSome
  have horigin := heorigin.trans (hrorigin.trans hawaited.origin)
  unfold OpenScope.declareDefined Checked.declareDefined
  dsimp only
  refine Completes.after hawaited.eq ?_
  generalize s.declareAwaited name = awaited at hrecord henumeration hend horigin ⊢
  refine Completes.after hrecord ?_
  generalize awaited.nameAside name awaited.context.record = r at henumeration hend horigin ⊢
  refine Completes.after henumeration ?_
  exact ⟨rfl, hend, horigin⟩

theorem Valid.collect (h : s.Valid) {word : String} (hword : word ≠ "") :
    s.Completes (Checked.collect word s) (s.update (·.pushWord word)) := by
  refine ⟨?_, h.update (h.current.pushWord hword), rfl⟩
  unfold Checked.collect
  rw [Checked.pushWord_eq h.context.legible_startRun.1]
  rfl

theorem Valid.endDeclarator (h : s.Valid) {word : String} (hword : word ≠ "") (terminator : Char)
    (hrun : s.context.run ≠ []) :
    s.Completes (Checked.endDeclarator word terminator s) (s.endDeclarator word terminator) := by
  obtain ⟨first, rest, hfirst⟩ := List.exists_cons_of_ne_nil hrun
  have hhead : s.context.run.texts.headD "" = first.text := by rw [hfirst]; rfl
  unfold Checked.endDeclarator OpenScope.endDeclarator
  dsimp only
  rw [hhead]
  refine Completes.after (a := first) (by rw [hfirst]; rfl) ?_
  split
  · exact h.declareDefined word hrun
  · split
    · exact h.declareAlias word _
    · have hw := h.collect hword
      split
      · split
        · exact h.updated h.current.dropRun
        · exact hw.bind fun ht => ht.declareVariable terminator
      · exact hw

/-! ## Constants -/

theorem Placed.claimConstant (h : s.Placed) (hbraces : 0 < s.context.braces)
    {enumeration : Option Place} {i : Nat}
    (hi : ∃ p n, enumeration = some p ∧ p.node? s.node = some n ∧ i < n.children.length) :
    (s.update ({ · with enumeration, claim := some [.constant i] })).Valid := by
  have hc := h.context
  refine ⟨h.update ⟨hc.run, hc.base, hc.home, hc.record, ?_⟩,
    ⟨.inl (Nat.le_refl 1), fun _ _ => hbraces⟩, ?_⟩
  · obtain ⟨p, n, rfl, hn, -⟩ := hi
    rintro _ ⟨⟩
    exact Option.isSome_iff_exists.mpr ⟨n, hn⟩
  · intro claim hmem
    rw [List.mem_singleton.mp hmem]
    exact Context.isSome_claimed?_constant.mpr hi

theorem Valid.declareConstant (h : s.Valid) (word : String) (hbraces : 0 < s.context.braces) :
    s.Completes (Checked.declareConstant word s) (s.declareConstant word) := by
  have ht := h.update (f := .takeComment) h.current.takeComment
  unfold Checked.declareConstant OpenScope.declareConstant
  refine Completes.after (Checked.describeIf_eq _ _) ?_
  refine Completes.of_origin (t := s.update .takeComment) ?_ rfl
  generalize (Node.ofName .constant word).describeIf s.context.comment = node
  replace hbraces : 0 < (s.update .takeComment).context.braces := hbraces
  generalize s.update .takeComment = t at *
  dsimp only
  match he : t.context.enumeration with
  | none => exact ht.refl
  | some (.inScope e) =>
    obtain ⟨owner, howner⟩ := Option.isSome_iff_exists.mp (ht.context.enumeration _ he)
    have hr := ht.commitTo ((get?_singleton _ e).trans howner) node
    have henumeration := (enumeration_commitTo t e [] node).trans he
    have hopen := (header_commitTo t [e] node).2
    refine hr.bind ?_
    dsimp only
    generalize t.commitTo [e] node = r at *
    obtain ⟨u, path⟩ := r
    cases path with
    | none => exact hr.valid.refl
    | some path =>
      obtain ⟨i, m, rfl, hm, -⟩ := hr.found path rfl
      obtain ⟨n, hn, hi⟩ := Option.bind_eq_some_iff.mp ((get?_append _ [e] [i]).symm.trans hm)
      have hfound : ∃ p n, u.context.enumeration = some p ∧ p.node? u.node = some n ∧
          i < n.children.length :=
        ⟨_, n, henumeration, (get?_singleton _ e).symm.trans hn,
          (List.getElem?_eq_some_iff.mp ((get?_singleton _ i).symm.trans hi)).1⟩
      exact ⟨rfl, hr.valid.toPlaced.claimConstant (hopen ▸ hbraces) hfound, rfl⟩
  | some (.aside home) =>
    obtain ⟨hvalid, horigin, hcontext, hi⟩ := ht.commitAside home node
    refine Completes.after (commitAside_eq t home node) ?_
    dsimp only
    generalize t.commitAside home node = r at *
    obtain ⟨u, i, home'⟩ := r
    cases i with
    | none => exact ⟨rfl, hvalid, horigin⟩
    | some i =>
      refine ⟨rfl, ?_, horigin⟩
      exact hvalid.toPlaced.claimConstant (hcontext ▸ hbraces) ⟨_, _, rfl, rfl, hi i rfl⟩

/-! ## Words -/

theorem Valid.declarationWord (h : s.Valid) {word : String} (hword : word ≠ "")
    (terminator : Char) :
    s.Completes (Checked.declarationWord word terminator s) (s.declarationWord word terminator) := by
  unfold Checked.declarationWord OpenScope.declarationWord
  dsimp only
  split
  · exact h.updated (h.current.congr h.context.run h.context.base rfl)
  · have hs := h.update (f := .startRun) h.current.startRun
    refine Completes.of_origin (t := s.update .startRun) ?_ rfl
    generalize s.update .startRun = t at *
    split
    · rename_i hstart
      simp only [Bool.and_eq_true, Option.isNone_iff_eq_none] at hstart
      exact hs.startFunction word hstart.1.1.1
    · split
      · split
        · exact hs.updated hs.current.dropRun
        · exact (hs.collect hword).bind fun hu => hu.updated hu.current.addArgument
      · split
        · rename_i hend
          have hrun : t.context.run ≠ [] := by
            simp only [Bool.and_eq_true] at hend
            simpa using hend.1.1
          exact hs.endDeclarator hword terminator hrun
        · exact hs.collect hword

theorem Valid.word (h : s.Valid) {word : String} (hword : word ≠ "") (terminator : Char) :
    s.Completes (Checked.word word terminator s) (s.word word terminator) := by
  unfold Checked.word OpenScope.word
  dsimp only
  split
  · exact h.declarationWord hword terminator
  · rename_i hbraces
    have hopen : 0 < s.context.braces := by
      simpa [Nat.pos_iff_ne_zero] using hbraces
    split
    · obtain ⟨c, hc⟩ : ∃ c, word.toList.head? = some c := by
        rw [← Option.isSome_iff_exists, List.isSome_head?]
        simpa using hword
      have hfirst : Checked.firstCharacter word = .ok c := by
        rw [Checked.firstCharacter, hc]
        rfl
      rw [hc]
      cases s.context.inValue with
      | true => exact h.refl
      | false =>
        refine Completes.after hfirst ?_
        cases hdigit : isDigit c with
        | true =>
          simp only [Option.any_some, hdigit]
          exact h.refl
        | false =>
          simp only [Option.any_some, hdigit]
          exact h.declareConstant word hopen
    · exact h.updated h.current.dropRun

/-! ## Semicolons -/

theorem Valid.endHeader (h : s.Valid) : s.Completes (Checked.endHeader s) s.endHeader := by
  unfold Checked.endHeader OpenScope.endHeader
  cases hhead : s.context.header with
  | none => exact h.refl
  | some head =>
    dsimp only
    split
    · exact h.commitHeader hhead
    · exact h.updated h.current.dropHeader

theorem declaresVariable_eq (scope : Kind) {c : Context} (hrun : c.run ≠ []) :
    Checked.declaresVariable scope c = .ok (declaresVariable scope c) := by
  unfold Checked.declaresVariable OpenScope.declaresVariable
  rw [Checked.isFunctionPointer_eq hrun]
  dsimp only
  split
  · rename_i hclosed
    rw [hclosed]
    split
    · rename_i hvalue
      rw [hvalue]
      rfl
    · rename_i hvalue
      rw [Bool.eq_false_iff.mpr hvalue]
      rfl
  · rename_i hclosed
    rw [Bool.eq_false_iff.mpr hclosed]
    rfl

theorem Valid.endRun (h : s.Valid) : s.Completes (Checked.endRun s) s.endRun := by
  unfold Checked.endRun OpenScope.endRun
  by_cases hrun : s.context.run = []
  · have hnone : declaresVariable s.node.kind s.context = false := by
      simp [declaresVariable, hrun, Run.isFunctionPointer, Run.texts]
    rw [hnone, hrun]
    exact h.refl
  · rw [if_neg (by simpa using hrun)]
    split
    · exact h.finishAlias hrun
    · refine Completes.after (declaresVariable_eq s.node.kind hrun) ?_
      split
      · exact h.declareVariable ';'
      · exact h.refl

theorem Valid.semicolon (h : s.Valid) : s.Completes (Checked.semicolon s) s.semicolon := by
  unfold Checked.semicolon OpenScope.semicolon
  refine h.endHeader.bind fun hheader => ?_
  refine hheader.endRun.bind fun hrun => ?_
  have hc := hrun.current
  refine hrun.updated ?_
  dsimp only
  split
  · rename_i hbraces
    refine ⟨⟨Run.legible_nil, Run.legible_nil, hc.home, nofun, nofun⟩, ⟨hc.apart, hc.braces⟩, ?_⟩
    intro claim hclaim
    have hfound := hc.found claim hclaim
    cases claim with
    | recorded path => exact hfound
    | argument => exact hfound
    | constant i =>
      have hopen := hc.braces i hclaim
      simp only [Context.dropRun, beq_iff_eq] at hbraces
      omega
  · exact ⟨⟨Run.legible_nil, Run.legible_nil, hc.home, nofun, hc.enumeration⟩,
      hc.toClaimsFound.congr rfl⟩

end OpenScope

end HeaderDocs.Scan
