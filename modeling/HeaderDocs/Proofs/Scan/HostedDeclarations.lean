import HeaderDocs.Proofs.Scan.Hosting
import HeaderDocs.Proofs.Scan.Written

/-!
# Declarations in a host

Each declaration is recorded in a host as it is in the scope that the host stands for. The two can
differ in one thing: whether a declaration that begins with `static` is left out depends on the kind of
the scope, so no such declaration may be read in a host.

* `Hosted.word`, `Hosted.semicolon`: what declarations do.
-/
namespace HeaderDocs.Scan

open HeaderDocs.Node

namespace Hosted

variable {host : Host} {below : Nat} {s u : OpenScope}

theorem run (h : Hosted host below s u) : s.context.run = u.context.run := by
  rw [h.context]
  rfl

theorem header (h : Hosted host below s u) :
    s.context.header = u.context.header.map (Header.mapIndex host.shift) := by
  rw [h.context]
  rfl

theorem isLeftOut (h : Hosted host below s u) {first : String}
    (hf : first ≠ "static" ∨ host = none) :
    isLeftOut s.node.kind first = isLeftOut u.node.kind first := by
  obtain hf | rfl := hf
  · simp [Scan.isLeftOut, beq_eq_false_iff_ne.mpr hf]
  · rw [h.node]
    rfl

theorem head_isLeftOut (h : Hosted host below s u) {run : Run}
    (hr : run.Each (· ≠ "static") ∨ host = none) :
    run.texts.head?.any (Scan.isLeftOut s.node.kind) =
      run.texts.head?.any (Scan.isLeftOut u.node.kind) := by
  cases run with
  | nil => rfl
  | cons f fs => exact h.isLeftOut (hr.imp_left fun hall => hall f (List.mem_cons_self ..))

/-! ## Functions -/

theorem recordNamed? (h : Hosted host below s u) (name : String) :
    OpenScope.recordNamed? s.node name =
      (OpenScope.recordNamed? u.node name).map (Place.mapIndex host.shift) := by
  unfold OpenScope.recordNamed?
  rw [h.node, Host.findIdx?_hold h.fits, Host.findIdx?_hold h.fits]
  cases u.node.children.findIdx? (isNamed .classType (some name)) with
  | some i => rfl
  | none => cases u.node.children.findIdx? (isNamed .structType (some name)) <;> rfl

theorem startFunction (h : Hosted host below s u)
    (hr : u.context.run.Each (· ≠ "static") ∨ host = none) (word : String) :
    Hosted host below (s.startFunction word) (u.startFunction word) := by
  unfold OpenScope.startFunction
  dsimp only
  rw [h.run, h.head_isLeftOut hr]
  split
  · exact h.update rfl
  · rw [h.context]
    cases OpenScope.splitQualified word with
    | none => exact h.update rfl
    | some parts =>
      refine h.update ?_
      simp only [h.recordNamed?]
      rfl

/-! ## Variables and names for types -/

theorem declareVariable (h : Hosted host below s u) (terminator : Char) :
    Hosted host below (s.declareVariable terminator) (u.declareVariable terminator) := by
  unfold OpenScope.declareVariable
  rw [h.run]
  split
  · exact h.update rfl
  · rename_i d _
    rw [h.context]
    exact (h.update (f := fun c => { c.dropRun.takeComment with
      base := if terminator == ',' then d.type.takeWhile (·.isWord) else [] }) rfl).commitClaimed _

theorem declareAlias (h : Hosted host below s u) (name : String) (type : Run) :
    Hosted host below (s.declareAlias name type) (u.declareAlias name type) := by
  unfold OpenScope.declareAlias
  dsimp only
  rw [show s.context.comment = u.context.comment by rw [h.context]; rfl]
  exact (h.update (f := fun c => { c.takeComment with run := [] }) rfl).commitClaimed _

theorem finishAlias (h : Hosted host below s u) :
    Hosted host below s.finishAlias u.finishAlias := by
  unfold OpenScope.finishAlias
  dsimp only
  rw [h.run]
  split
  · exact h.declareAlias _ _
  · exact h

/-! ## Declarators after a definition -/

theorem nameAside (h : Hosted host below s u) (name : String) (place : Option Place) :
    Hosted host below (s.nameAside name (place.map (Place.mapIndex host.shift))).1
        (u.nameAside name place).1 ∧
      (s.nameAside name (place.map (Place.mapIndex host.shift))).2 =
        (u.nameAside name place).2.map (Place.mapIndex host.shift) := by
  rcases place with _ | ⟨i⟩ | ⟨node⟩
  · exact ⟨h, rfl⟩
  · exact ⟨h, rfl⟩
  · simp only [OpenScope.nameAside, Option.map_some, Place.mapIndex]
    split
    · obtain ⟨hcommit, hpath⟩ := h.commit (node.withName name)
      refine ⟨hcommit, ?_⟩
      rw [hpath, placeOf_mapHead _ _ fun p hp => path_commit hp]
      rfl
    · exact ⟨h, rfl⟩

theorem declareAwaited (h : Hosted host below s u) (name : String) :
    Hosted host below (s.declareAwaited name) (u.declareAwaited name) := by
  unfold OpenScope.declareAwaited
  rw [h.run, show s.context.typeAlias = u.context.typeAlias by rw [h.context]; rfl]
  split
  · exact h.commitClaimed _
  · exact h.update rfl

theorem endDefinition (h : Hosted host below s u) (aliased : Bool) :
    Hosted host below (s.update (·.afterDefinition aliased))
      (u.update (·.afterDefinition aliased)) :=
  h.update (Context.afterDefinition_mapIndex _ aliased _)

theorem nameRecord (h : Hosted host below s u) (name : String) :
    Hosted host below
      ((s.nameAside name s.context.record).1.update
        ({ · with record := (s.nameAside name s.context.record).2 }))
      ((u.nameAside name u.context.record).1.update
        ({ · with record := (u.nameAside name u.context.record).2 })) := by
  have hrecord : s.context.record = u.context.record.map (Place.mapIndex host.shift) := by
    rw [h.context]
    rfl
  obtain ⟨hnamed, hplace⟩ := h.nameAside name u.context.record
  rw [hrecord, hplace]
  exact hnamed.update rfl

theorem nameEnumeration (h : Hosted host below s u) (name : String) :
    Hosted host below
      ((s.nameAside name s.context.enumeration).1.update
        ({ · with enumeration := (s.nameAside name s.context.enumeration).2 }))
      ((u.nameAside name u.context.enumeration).1.update
        ({ · with enumeration := (u.nameAside name u.context.enumeration).2 })) := by
  obtain ⟨hnamed, hplace⟩ := h.nameAside name u.context.enumeration
  rw [h.enumeration, hplace]
  exact hnamed.update rfl

theorem declareDefined (h : Hosted host below s u) (name : String) :
    Hosted host below (s.declareDefined name) (u.declareDefined name) := by
  have hend := (((h.declareAwaited name).nameRecord name).nameEnumeration name).endDefinition
    s.context.typeAlias.isSome
  have halias : s.context.typeAlias = u.context.typeAlias := by
    rw [h.context]
    rfl
  rw [declareDefined_eq, declareDefined_eq, ← halias]
  exact hend

theorem endDeclarator (h : Hosted host below s u)
    (hr : u.context.run.Each (· ≠ "static") ∨ host = none) (word : String) (terminator : Char) :
    Hosted host below (s.endDeclarator word terminator) (u.endDeclarator word terminator) := by
  have hpush := h.update (f := (·.pushWord word)) (g := (·.pushWord word))
    (Context.pushWord_mapIndex _ _)
  have hdefined : (s.context.typeAlias.isSome || s.context.record.isSome) =
      (u.context.typeAlias.isSome || u.context.record.isSome) := by
    rw [h.context]
    change (u.context.typeAlias.isSome || (u.context.record.map _).isSome) = _
    rw [Option.isSome_map]
  have hfirst : Scan.isLeftOut s.node.kind (u.context.run.texts.headD "") =
      Scan.isLeftOut u.node.kind (u.context.run.texts.headD "") := by
    refine h.isLeftOut (hr.imp_left fun hall => ?_)
    cases hrun : u.context.run with
    | nil => decide
    | cons f fs => exact hall f (hrun ▸ List.mem_cons_self ..)
  unfold OpenScope.endDeclarator
  dsimp only
  rw [hdefined, h.run, hfirst, show s.context.parens = u.context.parens by rw [h.context]; rfl]
  split
  · exact h.declareDefined word
  · split
    · exact h.declareAlias _ _
    · split
      · split
        · exact h.update rfl
        · exact hpush.declareVariable terminator
      · exact hpush

/-! ## Words -/

theorem declareConstant (h : Hosted host below s u) (word : String) :
    Hosted host below (s.declareConstant word) (u.declareConstant word) := by
  have htake := h.update (f := .takeComment) (g := .takeComment) (Context.takeComment_mapIndex _)
  unfold OpenScope.declareConstant
  dsimp only
  rw [htake.enumeration, show s.context.comment = u.context.comment by rw [h.context]; rfl]
  rcases (u.update .takeComment).context.enumeration with _ | ⟨e⟩ | ⟨home⟩
  · exact htake
  · -- the enumeration is a child of the scope
    obtain ⟨hcommit, hpath⟩ :=
      htake.commitTo [e] ((ofName .constant word).describeIf u.context.comment)
    have hshape : ∀ path, ((u.update .takeComment).commitTo [e]
        ((ofName .constant word).describeIf u.context.comment)).2 = some path →
        ∃ i, path = [e] ++ [i] := fun _ => path_commitTo
    simp only [Option.map_some, Place.mapIndex, show [host.shift e] = Path.mapHead host.shift [e]
      from rfl]
    generalize (s.update .takeComment).commitTo (Path.mapHead host.shift [e])
      ((ofName .constant word).describeIf u.context.comment) = there at hcommit hpath ⊢
    generalize (u.update .takeComment).commitTo [e]
      ((ofName .constant word).describeIf u.context.comment) = here at hcommit hpath hshape ⊢
    obtain ⟨t, _⟩ := there
    obtain ⟨v, path⟩ := here
    cases hpath
    cases path with
    | none => exact hcommit
    | some path =>
      obtain ⟨i, rfl⟩ := hshape path rfl
      exact hcommit.update rfl
  · -- the enumeration is kept aside
    obtain ⟨hcommit, hplace⟩ :=
      htake.commitAside home ((ofName .constant word).describeIf u.context.comment)
    simp only [Option.map_some, Place.mapIndex]
    generalize (s.update .takeComment).commitAside home
      ((ofName .constant word).describeIf u.context.comment) = there at hcommit hplace ⊢
    generalize (u.update .takeComment).commitAside home
      ((ofName .constant word).describeIf u.context.comment) = here at hcommit hplace ⊢
    obtain ⟨t, _⟩ := there
    obtain ⟨v, i?, home'⟩ := here
    cases hplace
    cases i? with
    | none => exact hcommit
    | some i => exact hcommit.update rfl

theorem each_startRun {c : Context} {P : String → Prop} (hr : c.run.Each P) (hb : c.base.Each P) :
    c.startRun.run.Each P := by
  unfold Context.startRun
  split
  · exact hb
  · exact hr

theorem declarationWord (h : Hosted host below s u)
    (hr : u.context.run.Each (· ≠ "static") ∧ u.context.base.Each (· ≠ "static") ∨ host = none)
    (word : String) (terminator : Char) :
    Hosted host below (s.declarationWord word terminator) (u.declarationWord word terminator) := by
  have hs := h.update (f := .startRun) (g := .startRun) (Context.startRun_mapIndex _)
  have hrs : (u.update .startRun).context.run.Each (· ≠ "static") ∨ host = none :=
    hr.imp_left fun hall => each_startRun hall.1 hall.2
  have hheader : (s.update .startRun).context.header.isNone =
      (u.update .startRun).context.header.isNone := by
    rw [hs.header, Option.isNone_map]
  have harguments : (s.update .startRun).context.inArguments =
      (u.update .startRun).context.inArguments := by
    rw [hs.context, Context.inArguments_mapIndex]
  unfold OpenScope.declarationWord
  dsimp only
  rw [h.run, h.isRecord.1, hs.run, hheader, harguments]
  split
  · exact h.update rfl
  · split
    · exact hs.startFunction hrs word
    · split
      · split
        · exact hs.update rfl
        · refine hs.update ?_
          rw [Context.pushWord_mapIndex, Context.addArgument_mapIndex]
      · split
        · exact hs.endDeclarator hrs word terminator
        · exact hs.update (Context.pushWord_mapIndex _ _)

theorem word (h : Hosted host below s u)
    (hr : u.context.run.Each (· ≠ "static") ∧ u.context.base.Each (· ≠ "static") ∨ host = none)
    (word : String) (terminator : Char) :
    Hosted host below (s.word word terminator) (u.word word terminator) := by
  unfold OpenScope.word
  dsimp only
  rw [show s.context.braces = u.context.braces by rw [h.context]; rfl,
    show s.context.inValue = u.context.inValue by rw [h.context]; rfl, h.enumeration,
    Option.isSome_map]
  split
  · exact h.declarationWord hr word terminator
  · split
    · split
      · exact h.declareConstant word
      · exact h
    · exact h.update rfl

/-! ## Semicolons -/

theorem endHeader (h : Hosted host below s u) : Hosted host below s.endHeader u.endHeader := by
  unfold OpenScope.endHeader
  rw [h.header, h.isRecord.1]
  cases u.context.header with
  | none => exact h
  | some head =>
    simp only [Option.map_some, show (head.mapIndex host.shift).typed = head.typed from rfl]
    split
    · exact h.commitHeader head
    · exact h.update (Context.dropHeader_mapIndex _)

theorem endRun (h : Hosted host below s u) (hr : u.context.run.Each (· ≠ "static") ∨ host = none) :
    Hosted host below s.endRun u.endRun := by
  have hdeclares : OpenScope.declaresVariable s.node.kind s.context =
      OpenScope.declaresVariable u.node.kind u.context := by
    unfold OpenScope.declaresVariable
    dsimp only
    rw [h.run, h.head_isLeftOut hr, h.context]
    rfl
  unfold OpenScope.endRun
  rw [h.run, hdeclares]
  split
  · exact h.finishAlias
  · split
    · exact h.declareVariable ';'
    · exact h

theorem each_endHeader {P : String → Prop} (hr : u.context.run.Each P) :
    u.endHeader.context.run.Each P := by
  unfold OpenScope.endHeader
  split
  · split
    · exact nofun
    · exact hr
  · exact hr

theorem semicolon (h : Hosted host below s u)
    (hr : u.context.run.Each (· ≠ "static") ∨ host = none) :
    Hosted host below s.semicolon u.semicolon := by
  have hrun := h.endHeader.endRun (hr.imp_left each_endHeader)
  unfold OpenScope.semicolon
  refine hrun.update ?_
  dsimp only
  rw [show (u.endHeader.endRun.context.mapIndex host.shift).dropRun.braces =
    u.endHeader.endRun.context.dropRun.braces from rfl]
  split <;> rfl

end Hosted

end HeaderDocs.Scan
