import HeaderDocs.Proofs.Scan.Checked.Declarations
import HeaderDocs.Proofs.Scan.Arrangement
import HeaderDocs.Proofs.Scan.Skim

/-!
# Nothing is missing in a source

The open scopes of a state form a stack. The innermost one is valid; the others wait with nothing
claimed, each with a place for the scope that was opened in it, and the last one is the scope of the
source (`OpenScope.Founded`). So a closing brace finds the scope that it returns to, and the scope of
the source is the only one without another around it.

* `State.Valid.step`: reading one character uses nothing that is missing, and never ends the source.
* `scan_checked`: whatever the source and the tree are, the checked scan has no fault, reads the
  source to its end and has the result of the scan.
-/
namespace HeaderDocs.Scan

open HeaderDocs.Node HeaderDocs.Text

/-! ## Scopes that are open around another one -/

namespace OpenScope

variable {s t inner outer : OpenScope} {enclosing : List OpenScope}

/-- A scope that waits until the one inside of it is put back claims nothing. -/
def Waiting (s : OpenScope) : Prop := s.Placed ∧ s.context.claims = []

/-- A scope has a place in the one around it. -/
def RestsOn (inner outer : OpenScope) : Prop :=
  match inner.origin with
  | .source => False
  | .record => outer.context.record.isSome = true
  | .nameSpace (some i) => i < outer.node.children.length
  | .nameSpace none => True

/-- The open scopes around a scope, from the innermost one out. Only that of the source has none
around it. -/
def Founded : OpenScope → List OpenScope → Prop
  | s, [] => s.origin = .source
  | s, outer :: enclosing => s.RestsOn outer ∧ outer.Waiting ∧ Founded outer enclosing

theorem RestsOn.congr (h : s.RestsOn outer) (he : t.origin = s.origin) : t.RestsOn outer := by
  unfold RestsOn
  rw [he]
  exact h

theorem Founded.congr (h : Founded s enclosing) (he : t.origin = s.origin) :
    Founded t enclosing := by
  cases enclosing with
  | nil => exact he.trans h
  | cons outer enclosing => exact ⟨h.1.congr he, h.2⟩

theorem Founded.source_iff (h : Founded s enclosing) : s.origin = .source ↔ enclosing = [] := by
  cases enclosing with
  | nil => exact ⟨fun _ => rfl, fun _ => h⟩
  | cons outer enclosing =>
    refine ⟨fun he => ?_, nofun⟩
    have hrests := h.1
    unfold RestsOn at hrests
    rw [he] at hrests
    exact hrests.elim

theorem Waiting.valid (h : s.Waiting) : s.Valid := h.1.valid h.2

theorem Valid.waiting (h : s.Valid) (hclaims : s.context.claims = []) : s.Waiting :=
  ⟨h.toPlaced, hclaims⟩

theorem valid_begin (node : Node) (origin : Origin) : (begin node origin).Valid :=
  Placed.valid ⟨Context.placed_ofScope node node, fun _ hc => absurd hc List.not_mem_nil⟩ rfl

/-- Putting a scope back leaves the one around it waiting. -/
theorem Waiting.afterPutBack (h : outer.Waiting) (inner : OpenScope) :
    (State.putBack inner outer).Waiting ∧ (State.putBack inner outer).origin = outer.origin := by
  obtain ⟨hplaced, hclaims⟩ := h
  have hevents : Placed { outer with events := outer.events ++ inner.events } :=
    ⟨hplaced.context, hplaced.suspended⟩
  have hchild : ∀ i, Placed
      (modifyAt (fun _ => inner.node) [i] { outer with events := outer.events ++ inner.events }) :=
    fun i => hevents.withNode (by simp [Node.modifyAt])
  unfold State.putBack
  dsimp only
  split
  · exact ⟨⟨hevents, hclaims⟩, rfl⟩
  · split
    · rename_i i _
      split
      · exact ⟨⟨hchild i, hclaims⟩, rfl⟩
      · obtain ⟨hremoved, he, hnil⟩ := (hchild i).withdrawClaim (.recorded [i])
        exact ⟨⟨hremoved, hnil hclaims⟩, he⟩
    · have hc := hplaced.context
      refine ⟨⟨hevents.update ⟨hc.run, hc.base, hc.home, ?_, hc.enumeration⟩, hclaims⟩, rfl⟩
      rintro _ ⟨⟩
      exact Place.found_aside inner.node
    · exact ⟨⟨hevents, hclaims⟩, rfl⟩
  · rename_i i _
    exact ⟨⟨hchild i, hclaims⟩, rfl⟩
  · exact ⟨⟨hevents, hclaims⟩, rfl⟩

/-- A scope that has been closed finds its place in the one around it. -/
theorem Waiting.putBack (h : outer.Waiting) (hrests : inner.RestsOn outer) :
    Checked.putBack inner outer = .ok (State.putBack inner outer) := by
  unfold RestsOn at hrests
  unfold Checked.putBack
  cases horigin : inner.origin with
  | source =>
    rw [horigin] at hrests
    exact hrests.elim
  | record =>
    rw [horigin] at hrests
    obtain ⟨place, hplace⟩ := Option.isSome_iff_exists.mp hrests
    obtain ⟨node, hnode⟩ := Option.isSome_iff_exists.mp (h.1.context.record _ hplace)
    dsimp only
    rw [hplace]
    refine (Checked.bind_eq (a := place) rfl _).trans ?_
    rw [hnode]
    rfl
  | nameSpace index =>
    rw [horigin] at hrests
    cases index with
    | none => rfl
    | some i =>
      dsimp only
      rw [Checked.nodeAt, get?_singleton, List.getElem?_eq_getElem hrests]
      rfl

theorem Founded.unwind (h : Founded s enclosing) :
    Checked.unwind s enclosing = .ok (State.unwind s enclosing) := by
  induction enclosing generalizing s with
  | nil => rfl
  | cons outer enclosing ih =>
    obtain ⟨hrests, hwaiting, hfounded⟩ := h
    have horigin := (hwaiting.afterPutBack s).2
    exact (Checked.bind_eq (hwaiting.putBack hrests) _).trans (ih (hfounded.congr horigin))

end OpenScope

/-! ## States -/

namespace State

open OpenScope

/-- The innermost scope is valid, and the others wait. -/
structure Valid (s : State) : Prop where
  scope : s.scope.Valid
  founded : Founded s.scope s.enclosing

/-- An operation that finds what it uses, and after which the source is read on. -/
structure ReadsOn (x : Attempt (State × Bool)) (t : State) : Prop where
  eq : x = .ok (t, false)
  valid : t.Valid

variable {s t : State} {x : Attempt State}

theorem Valid.enter (h : s.Valid) (mode : Mode) : (s.enter mode).Valid := ⟨h.scope, h.founded⟩

theorem Valid.update (h : s.Valid) {f : Context → Context}
    (hf : (f s.scope.context).Valid s.scope.node) : (s.update (·.update f)).Valid :=
  ⟨h.scope.update hf, h.founded.congr rfl⟩

theorem Valid.updateScope (h : s.Valid) {f : OpenScope → Attempt OpenScope}
    {g : OpenScope → OpenScope}
    (hf : s.scope.Completes (f s.scope) (g s.scope)) :
    Checked.updateScope f s = .ok (s.update g) ∧ (s.update g).Valid := by
  refine ⟨?_, hf.valid, h.founded.congr hf.origin⟩
  exact Checked.bind_eq hf.eq _

theorem readsOn (hx : x = .ok t) (ht : t.Valid) : ReadsOn (Checked.andReadOn x) t :=
  ⟨Checked.bind_eq hx _, ht⟩

/-! ## Closing braces -/

/-- A closing brace ends a block or a scope, but never the source. -/
theorem Valid.pop (h : s.Valid) : ReadsOn (Checked.pop s) s.pop := by
  unfold Checked.pop State.pop
  cases hsuspended : s.scope.suspended with
  | cons context suspended =>
    have hsuspend := h.scope.suspended
    rw [hsuspended] at hsuspend
    obtain ⟨⟨hplaced, hclaims⟩, hrest⟩ := List.forall_mem_cons.mp hsuspend
    refine ⟨rfl, ?_, h.founded.congr rfl⟩
    exact Placed.valid ⟨hplaced, hrest⟩ hclaims
  | nil =>
    have hfounded := h.founded
    cases henclosing : s.enclosing with
    | nil =>
      rw [henclosing] at hfounded
      dsimp only
      rw [if_pos (show s.scope.origin = .source from hfounded)]
      exact ⟨rfl, h⟩
    | cons outer enclosing =>
      have hinner : s.scope.origin ≠ .source := by
        rw [Ne, h.founded.source_iff, henclosing]
        exact nofun
      rw [henclosing] at hfounded
      obtain ⟨hrests, hwaiting, hfounded⟩ := hfounded
      obtain ⟨hwaiting', horigin⟩ := hwaiting.afterPutBack s.scope
      dsimp only
      rw [if_neg hinner, hwaiting.putBack hrests]
      exact ⟨rfl, hwaiting'.valid, hfounded.congr horigin⟩

theorem Valid.closeBrace (h : s.Valid) : ReadsOn (Checked.closeBrace s) s.closeBrace := by
  rw [closeBrace_eq]
  unfold Checked.closeBrace
  split
  · exact ⟨rfl, h.update h.scope.current.afterBlock⟩
  · exact (h.update h.scope.current.afterBody).pop

/-! ## Opening braces -/

theorem definition_eq {c : Context} {keyword : Fragment}
    (hkeyword : (splitAlias c.run).2.head? = some keyword) :
    Checked.definition c = .ok ((splitAlias c.run).1, (splitAlias c.run).2, keyword) := by
  have hsplit : ∀ f fs, splitAlias (f :: fs) =
      if f.text == "typedef" then (true, fs) else (false, f :: fs) := fun _ _ => rfl
  unfold Checked.definition
  cases hrun : c.run with
  | nil =>
    rw [hrun] at hkeyword
    cases hkeyword
  | cons f fs =>
    rw [hrun, hsplit] at hkeyword
    rw [hsplit]
    refine (Checked.bind_eq (Checked.firstFragment_cons f fs) _).trans ?_
    dsimp only [List.drop_one, List.tail_cons]
    cases hf : f.text == "typedef" with
    | true =>
      rw [hf] at hkeyword
      obtain ⟨rest, rfl⟩ := List.head?_eq_some_iff.mp hkeyword
      rfl
    | false =>
      rw [hf] at hkeyword
      cases hkeyword
      rfl

theorem Valid.beginDefinition {scope : OpenScope} (h : scope.Valid) (aliased : Bool) {run : Run}
    (hrun : run ≠ []) (hlegible : run.Legible) :
    scope.Completes (Checked.beginDefinition aliased run scope)
      (scope.update fun c =>
        let c := if aliased then { c with run := run.closeUp } else c.dropRun
        { c.takeComment with typeAlias := aliasOf aliased scope.context.comment }) := by
  have hc := h.current
  cases aliased with
  | false => exact h.updated (hc.congr Run.legible_nil hc.base rfl)
  | true =>
    refine Completes.after (Checked.describeIf_eq _ _) ?_
    refine Completes.after (Checked.closeUp_eq hrun) ?_
    exact h.updated (hc.congr hlegible.closeUp hc.base rfl)

theorem valid_push {mode : Mode} {scope : OpenScope} {enclosing : List OpenScope} {node : Node}
    {origin : Origin} (hscope : scope.Valid) (hclaims : scope.context.claims = [])
    (hfounded : Founded scope enclosing) (hrests : (OpenScope.begin node origin).RestsOn scope) :
    (State.push node origin { mode, scope, enclosing }).Valid :=
  ⟨valid_begin node origin, hrests, hscope.waiting hclaims, hfounded⟩

theorem Valid.openRecord (h : s.Valid) {keyword : Fragment} {kind : Kind}
    (hkeyword : (splitAlias s.scope.context.run).2.head? = some keyword)
    (hkind : recordKind? keyword.text = some kind) :
    Checked.openRecord s = .ok (s.openRecord kind (splitAlias s.scope.context.run).1
        (splitAlias s.scope.context.run).2) ∧
      (s.openRecord kind (splitAlias s.scope.context.run).1
        (splitAlias s.scope.context.run).2).Valid := by
  have hlegible := h.scope.context.run.subset (splitAlias_sublist s.scope.context.run).subset
  have hdefinition := definition_eq hkeyword
  unfold Checked.openRecord
  rw [openRecord_eq]
  unfold State.beginRecord
  generalize (splitAlias s.scope.context.run).1 = aliased at *
  generalize (splitAlias s.scope.context.run).2 = run at *
  have hrun : run ≠ [] := by
    rintro rfl
    cases hkeyword
  extract_lets c attrs node begun
  have hbegin : s.scope.Completes (Checked.beginDefinition aliased run s.scope) begun :=
    Valid.beginDefinition h.scope aliased hrun hlegible
  have hr := hbegin.valid.commitNamed node
  rcases he : begun.commitNamed node with ⟨t, path⟩
  rw [he] at hr
  obtain ⟨m, hm⟩ := Option.isSome_iff_exists.mp hr.found_placeOf
  dsimp only at hm ⊢
  rw [hm]
  refine ⟨?_, ?_⟩
  · refine (Checked.bind_eq hdefinition _).trans ?_
    refine (Checked.bind_eq (a := kind) (by rw [hkind]; rfl) _).trans ?_
    refine (Checked.bind_eq (Checked.describe_eq _ _) _).trans ?_
    refine (Checked.bind_eq hbegin.eq _).trans ?_
    refine (Checked.bind_eq hr.eq _).trans ?_
    exact (Checked.bind_eq (a := m) (by rw [hm]; rfl) _).trans rfl
  · have hc := hr.valid.context
    refine valid_push ?_ rfl (h.founded.congr (hr.origin.trans hbegin.origin)) rfl
    refine hr.valid.toPlaced.forgetClaim ⟨hc.run, hc.base, hc.home, ?_, hc.enumeration⟩ rfl
    rintro _ ⟨⟩
    exact hr.found_placeOf

/-- The body of a namespace, old or new. -/
theorem Valid.openNameSpace (h : s.Valid) (name : String) :
    Checked.openNameSpace name s = .ok (s.openNameSpace name) ∧ (s.openNameSpace name).Valid := by
  have hu : (s.scope.update fun c => { c.takeComment.dropRun with claim := none }).Valid :=
    h.scope.update h.scope.current.takeComment.dropRun.forgetClaim
  have horigin : (s.scope.update fun c => { c.takeComment.dropRun with claim := none }).origin =
    s.scope.origin := rfl
  have hclaims : (s.scope.update fun c =>
    { c.takeComment.dropRun with claim := none }).context.claims = [] := rfl
  rw [openNameSpace_eq]
  unfold Checked.openNameSpace beginNameSpace
  dsimp only at hu horigin hclaims ⊢
  generalize s.scope.update _ = updated at hu horigin hclaims ⊢
  cases hi : updated.node.children.findIdx? (isNamed .nameSpace (some name)) with
  | some i =>
    have hlt := (List.findIdx?_eq_some_iff_getElem.mp hi).1
    have hget : updated.node.get? [i] = some updated.node.children[i] := by
      rw [get?_singleton, List.getElem?_eq_getElem hlt]
    dsimp only
    rw [Checked.nodeAt, hget]
    exact ⟨rfl, valid_push hu hclaims (h.founded.congr horigin) hlt⟩
  | none =>
    dsimp only
    rw [Checked.describe_eq]
    generalize (ofName .nameSpace name).describe (s.scope.context.comment.getD "") = node
    have hr := hu.commit node
    have hclaims' := claims_commit hclaims node
    refine ⟨Checked.bind_eq hr.eq _, ?_⟩
    generalize updated.commit node = r at *
    refine valid_push hr.valid hclaims' (h.founded.congr (hr.origin.trans horigin)) ?_
    cases hpath : r.2 with
    | none => exact trivial
    | some path =>
      obtain ⟨i, m, rfl, hm, -⟩ := hr.found path hpath
      exact (List.getElem?_eq_some_iff.mp ((get?_singleton _ i).symm.trans hm)).1

/-- The enumeration is noted; what is claimed is forgotten with its brace. -/
theorem Valid.openEnumeration {scope : OpenScope} (h : scope.Valid) {keyword : Fragment}
    (hkeyword : (splitAlias scope.context.run).2.head? = some keyword) :
    Checked.openEnumeration scope = .ok (State.openEnumeration (splitAlias scope.context.run).1
        (splitAlias scope.context.run).2 scope) ∧
      (State.openEnumeration (splitAlias scope.context.run).1
        (splitAlias scope.context.run).2 scope).Placed ∧
      (State.openEnumeration (splitAlias scope.context.run).1
        (splitAlias scope.context.run).2 scope).origin = scope.origin := by
  have hlegible := h.context.run.subset (splitAlias_sublist scope.context.run).subset
  have hdefinition := definition_eq hkeyword
  unfold Checked.openEnumeration State.openEnumeration
  generalize (splitAlias scope.context.run).1 = aliased at *
  generalize (splitAlias scope.context.run).2 = run at *
  have hrun : run ≠ [] := by
    rintro rfl
    cases hkeyword
  extract_lets c name node typeAlias begun
  have hbegin : scope.Completes (Checked.beginDefinition aliased run scope) begun :=
    Valid.beginDefinition h aliased hrun hlegible
  have hr := hbegin.valid.commitNamed node
  rcases he : begun.commitNamed node with ⟨t, path⟩
  rw [he] at hr
  refine ⟨?_, ?_, hr.origin.trans hbegin.origin⟩
  · refine (Checked.bind_eq hdefinition _).trans ?_
    refine (Checked.bind_eq (Checked.describe_eq _ _) _).trans ?_
    refine (Checked.bind_eq hbegin.eq _).trans ?_
    exact (Checked.bind_eq hr.eq _).trans rfl
  · have hc := hr.valid.context
    refine hr.valid.toPlaced.update ⟨hc.run, hc.base, hc.home, hc.record, ?_⟩
    rintro _ ⟨⟩
    exact hr.found_placeOf

theorem Valid.openBlock (h : s.Valid) {f : OpenScope → Attempt OpenScope} {g : OpenScope → OpenScope}
    (hf : f s.scope = .ok (g s.scope)) (hplaced : (g s.scope).Placed)
    (horigin : (g s.scope).origin = s.scope.origin) :
    Checked.openBlock f s = .ok (s.openBlock g) ∧ (s.openBlock g).Valid := by
  have hc := hplaced.context
  refine h.updateScope ⟨?_, ?_, horigin⟩
  · exact (Checked.bind_eq hf _).trans rfl
  · exact hplaced.forgetClaim (hc.congr hc.run hc.base rfl) rfl

theorem Valid.openLinkage (h : s.Valid) : s.openLinkage.Valid := by
  refine ⟨Placed.valid ⟨Context.placed_ofScope _ _, ?_⟩ rfl, h.founded.congr rfl⟩
  intro c hc
  rcases List.mem_cons.mp hc with rfl | hc
  · exact ⟨h.scope.current.dropRun.forgetClaim.toPlaced, rfl⟩
  · exact h.scope.suspended c hc

/-- Whether the first word of a definition is `typedef`, and the word that says what it defines. -/
theorem words_splitAlias (run : Run) :
    (splitAlias run).1 = (run.texts.headD "" == "typedef") ∧
      (splitAlias run).2.texts.headD "" =
        if run.texts.headD "" == "typedef" then (run.texts[1]?).getD "" else run.texts.headD "" := by
  match run with
  | [] => exact ⟨rfl, rfl⟩
  | [f] =>
    have hsplit : splitAlias [f] = if f.text == "typedef" then (true, []) else (false, [f]) := rfl
    rw [hsplit]
    cases hf : f.text == "typedef" <;> simp [Run.texts, hf]
  | f :: g :: rest =>
    have hsplit : splitAlias (f :: g :: rest) =
        if f.text == "typedef" then (true, g :: rest) else (false, f :: g :: rest) := rfl
    rw [hsplit]
    cases hf : f.text == "typedef" <;> simp [Run.texts, hf]

/-- What the first words of a definition define is asked for in the same way, whether they are taken
from the run before or after. -/
theorem isRecord_words (run : Run) :
    (Checked.isRecordWord (run.texts.headD "") ||
      (run.texts.headD "" == "typedef" && Checked.isRecordWord ((run.texts[1]?).getD ""))) =
    (recordKind? ((splitAlias run).2.texts.headD "")).isSome := by
  rw [(words_splitAlias run).2]
  cases ht : run.texts.headD "" == "typedef" with
  | true =>
    rw [beq_iff_eq.mp ht]
    rfl
  | false => simp [Checked.isRecordWord]

theorem isNameSpace_words {words : List String} (h : ∀ word ∈ words, word ≠ "") :
    (words.headD "" == "namespace" && (words[1]?).getD "" != "") = true ↔
      ∃ rest, words = "namespace" :: (words[1]?).getD "" :: rest := by
  match words with
  | [] => simp
  | [first] => simp
  | first :: second :: rest =>
    have hsecond := h second (by simp)
    simp [hsecond]

theorem isEnumeration_words (run : Run) :
    (run.texts.headD "" == "enum" ||
      (run.texts.headD "" == "typedef" && (run.texts[1]?).getD "" == "enum")) =
    ((splitAlias run).2.texts.headD "" == "enum") := by
  rw [(words_splitAlias run).2]
  cases ht : run.texts.headD "" == "typedef" with
  | true =>
    rw [beq_iff_eq.mp ht]
    rfl
  | false => simp

theorem isLinkage_words (run : Run) :
    (run.texts.headD "" == "extern") =
      ((splitAlias run).2.texts.headD "" == "extern" && !(splitAlias run).1) := by
  rw [(words_splitAlias run).1, (words_splitAlias run).2]
  cases ht : run.texts.headD "" == "typedef" with
  | true =>
    rw [beq_iff_eq.mp ht, Bool.not_true, Bool.and_false]
    rfl
  | false => simp

/-- The word that says what is defined is a fragment of the run. -/
theorem exists_keyword {run : Run} {word : String} (h : (splitAlias run).2.texts.headD "" = word)
    (hword : word ≠ "") :
    ∃ keyword, (splitAlias run).2.head? = some keyword ∧ keyword.text = word := by
  cases hrun : (splitAlias run).2 with
  | nil =>
    rw [hrun] at h
    exact absurd h.symm hword
  | cons f fs =>
    rw [hrun] at h
    exact ⟨f, rfl, h⟩

theorem Valid.openBrace (h : s.Valid) :
    Checked.openBrace s = .ok s.openBrace ∧ s.openBrace.Valid := by
  have hc := h.scope.current
  have hlegible : ∀ word ∈ s.scope.context.run.texts, word ≠ "" :=
    List.forall_mem_map.mpr hc.run
  have hdrop : (s.openBlock (·.update .dropRun)).Valid :=
    (h.openBlock (f := fun scope => .ok (scope.update .dropRun)) rfl
      (h.scope.update hc.dropRun).toPlaced rfl).2
  unfold Checked.openBrace State.openBrace
  dsimp only
  cases hheader : s.scope.context.header with
  | some head =>
    have hr := h.scope.commitHeader hheader
    exact h.openBlock hr.eq hr.valid.toPlaced hr.origin
  | none =>
    dsimp only
    rw [isRecord_words]
    cases hkind : recordKind? ((splitAlias s.scope.context.run).2.texts.headD "") with
    | some kind =>
      have hne : (splitAlias s.scope.context.run).2.texts.headD "" ≠ "" := by
        intro he
        rw [he] at hkind
        cases hkind
      obtain ⟨keyword, hkeyword, htext⟩ := exists_keyword rfl hne
      exact h.openRecord hkeyword (htext ▸ hkind)
    | none =>
      dsimp only [Option.isSome_none]
      by_cases hname : (s.scope.context.run.texts.headD "" == "namespace" &&
          (s.scope.context.run.texts[1]?).getD "" != "") = true
      · obtain ⟨rest, hwords⟩ := (isNameSpace_words hlegible).mp hname
        rw [if_neg nofun, if_pos hname]
        generalize (s.scope.context.run.texts[1]?).getD "" = name at *
        rw [hwords]
        exact h.openNameSpace name
      · have hnone : ∀ name rest, s.scope.context.run.texts ≠ "namespace" :: name :: rest :=
          fun name rest hwords =>
            hname ((isNameSpace_words hlegible).mpr ⟨rest, by rw [hwords]; rfl⟩)
        rw [if_neg nofun, if_neg hname, isEnumeration_words, isLinkage_words]
        split
        · rename_i henum
          split
          · exact absurd ‹_› (hnone _ _)
          · simp only [Bool.and_eq_true, beq_iff_eq] at henum
            obtain ⟨keyword, hkeyword, -⟩ := exists_keyword henum.2 (by decide)
            obtain ⟨heq, hplaced, horigin⟩ := Valid.openEnumeration h.scope hkeyword
            exact h.openBlock heq hplaced horigin
        · split
          · split
            · exact absurd ‹_› (hnone _ _)
            · exact ⟨rfl, h.openLinkage⟩
          · split
            · exact absurd ‹_› (hnone _ _)
            · exact ⟨rfl, hdrop⟩

/-! ## Characters -/

/-- A mark that opens and closes nothing only concerns the words being read. -/
theorem Valid.mark (h : s.Valid) (c : Char) : ReadsOn (Checked.mark c s) (s.mark c) := by
  have hc := h.scope.current
  unfold Checked.mark
  split
  · obtain ⟨heq, hvalid⟩ := h.openBrace
    exact readsOn heq hvalid
  · exact h.closeBrace
  · obtain ⟨heq, hvalid⟩ := h.updateScope h.scope.semicolon
    exact readsOn heq hvalid
  · rename_i hopen hclose hsemicolon
    refine ⟨rfl, ?_⟩
    unfold State.mark
    split
    · exact h.enter _
    · exact h.enter _
    · exact h.enter _
    · exact absurd rfl hopen
    · exact absurd rfl hclose
    · exact h.update hc.openParen
    · exact h.update hc.closeParen
    · exact absurd rfl hsemicolon
    · exact h.update hc.comma
    · exact h.update hc.equals
    · exact h.update (hc.pushMark (by decide))
    · exact h.update (hc.pushMark (by decide))
    · exact h.update (hc.pushMark (by decide))
    · exact h.update (hc.pushFragment (by decide) true)
    · exact h.update (hc.pushIfStarted (by decide) true)
    · split
      · exact h.enter _
      · exact h

theorem Valid.plain (h : s.Valid) (c : Char) : ReadsOn (Checked.plain c s) (s.plain c) := by
  have hc := h.scope.current
  unfold Checked.plain State.plain
  split
  · rename_i hpass
    refine ⟨rfl, ?_⟩
    split
    · exact h.update (hc.forgetClaim.congr hc.run hc.base rfl)
    · split
      · exact h
      · split
        · exact h.enter _
        · simp_all
  · rename_i hpass
    simp only [Bool.or_eq_true, not_or] at hpass
    rw [if_neg hpass.1.1, if_neg hpass.1.2, if_neg hpass.2]
    exact (h.update (f := ({ · with joinable := false })) (hc.congr hc.run hc.base rfl)).mark c

theorem Valid.endComment (h : s.Valid) (text : List Char) (line : Bool) :
    Checked.endComment text line s = .ok (s.endComment text line) ∧
      (s.endComment text line).Valid :=
  (h.enter .plain).updateScope (h.scope.takeComment _ line)

theorem Valid.blockComment (h : s.Valid) (text : List Char) (lineStart : Bool) (c : Char) :
    Checked.blockComment text lineStart c s = .ok (s.blockComment text lineStart c) ∧
      (s.blockComment text lineStart c).Valid := by
  unfold Checked.blockComment State.blockComment
  dsimp only
  split
  · rename_i hpass
    refine ⟨rfl, ?_⟩
    split
    · exact h.enter _
    · split
      · exact h.enter _
      · split
        · exact h.enter _
        · simp_all
  · rename_i hpass
    simp only [Bool.or_eq_true, not_or] at hpass
    rw [if_neg hpass.1.1, if_neg hpass.1.2, if_neg hpass.2]
    split
    · rename_i hends
      simp only [Bool.and_eq_true, beq_iff_eq] at hends
      obtain ⟨rfl, hstar⟩ := hends
      obtain ⟨rest, rfl⟩ := List.head?_eq_some_iff.mp hstar
      exact h.endComment _ false
    · rename_i hcontinues
      split
      · exact absurd rfl hcontinues
      · exact ⟨rfl, h.enter _⟩

theorem Valid.endLine (h : s.Valid) : (s.update (·.update .endLine)).Valid :=
  h.update h.scope.current.forgetClaim

theorem Valid.endLineComment (h : s.Valid) (text : List Char) :
    Checked.endLineComment text s = .ok (s.endLineComment text) ∧ (s.endLineComment text).Valid := by
  obtain ⟨heq, hvalid⟩ :=
    h.endComment (trim (text.reverse.dropWhile fun c => c == '/' || c == '!')) true
  exact ⟨Checked.bind_eq heq _, hvalid.endLine⟩

theorem Valid.directive (h : s.Valid) (quote : Option Char) (c : Char) :
    (s.directive quote c).Valid := by
  rcases directive_acts quote c with ⟨-, hend⟩ | ⟨next, -, hnext⟩
  · rw [hend]
    exact (h.enter .plain).endLine
  · rw [hnext]
    exact h.enter next

/-- The text of a word or a literal that has begun is not empty. -/
theorem ofList_reverse_ne_empty {text : List Char} (h : text ≠ []) :
    String.ofList text.reverse ≠ "" := by
  simpa using h

/-- Reading a character uses nothing that is missing, and never ends the source. -/
theorem Valid.step (h : s.Valid) (hbegun : s.mode.Begun) (c : Char) :
    ReadsOn (Checked.step s c) (s.step c) := by
  unfold Checked.step State.step
  cases hmode : s.mode with
  | plain => exact h.plain c
  | slash =>
    dsimp only
    split
    · rename_i hcomment
      refine ⟨rfl, ?_⟩
      split
      · exact h.enter _
      · split
        · exact h.enter _
        · simp_all
    · rename_i hcomment
      simp only [Bool.or_eq_true, not_or] at hcomment
      rw [if_neg hcomment.1, if_neg hcomment.2]
      have hc := h.scope.current
      have hmark : Context.Valid s.scope.node
          (Context.pushMark { s.scope.context with joinable := false } "/") :=
        Context.Valid.pushMark (hc.congr (d := { s.scope.context with joinable := false }) hc.run
          hc.base rfl) (by decide)
      exact ((h.enter .plain).update
        (f := fun c => Context.pushMark { c with joinable := false } "/") hmark).plain c
  | directive quote => exact ⟨rfl, h.directive quote c⟩
  | directiveEscape quote => exact ⟨rfl, h.enter _⟩
  | directiveSlash =>
    refine ⟨rfl, ?_⟩
    dsimp only
    split
    · exact h.enter _
    · exact h.directive none c
  | directiveComment star =>
    refine ⟨rfl, ?_⟩
    dsimp only
    split <;> exact h.enter _
  | blockComment text lineStart =>
    obtain ⟨heq, hvalid⟩ := h.blockComment text lineStart c
    exact readsOn heq hvalid
  | blockStar text =>
    dsimp only
    split
    · obtain ⟨heq, hvalid⟩ := h.endComment
        (trimEnd (dropEndWhile (· == '*') (trimEnd text.reverse))) false
      exact readsOn heq hvalid
    · obtain ⟨heq, hvalid⟩ := h.blockComment text true c
      exact readsOn heq hvalid
  | lineComment text =>
    dsimp only
    split
    · obtain ⟨heq, hvalid⟩ := h.endLineComment text
      exact readsOn heq hvalid
    · refine ⟨rfl, ?_⟩
      split
      · exact h
      · exact h.enter _
  | literal quote text =>
    refine ⟨rfl, ?_⟩
    dsimp only
    split
    · exact h.enter _
    · split
      · exact (h.enter .plain).update (h.scope.current.pushIfStarted
          (ofList_reverse_ne_empty (List.cons_ne_nil c text)) true)
      · exact h.enter _
  | literalEscape quote text => exact ⟨rfl, h.enter _⟩
  | word text =>
    dsimp only
    split
    · exact ⟨rfl, h.enter _⟩
    · have hne : text ≠ [] := by
        rintro rfl
        rw [hmode] at hbegun
        obtain ⟨first, hfirst, -⟩ := hbegun
        cases hfirst
      obtain ⟨heq, hvalid⟩ :=
        (h.enter .plain).updateScope (h.scope.word (ofList_reverse_ne_empty hne) c)
      have hread := hvalid.plain c
      exact ⟨(Checked.bind_eq heq _).trans hread.eq, hread.valid⟩

/-- Reading a text, from its first character to its last. -/
theorem Valid.read (h : s.Valid) (hbegun : s.mode.Begun) (text : List Char) :
    Checked.read s text = .ok (s.run text, []) ∧ (s.run text).Valid := by
  induction text generalizing s with
  | nil => exact ⟨rfl, h⟩
  | cons c text ih =>
    have hstep := h.step hbegun c
    obtain ⟨heq, hvalid⟩ := ih hstep.valid (begun_step hbegun c)
    exact ⟨(Checked.bind_eq hstep.eq _).trans heq, hvalid⟩

end State

/-! ## Whole sources -/

/-- The scan takes nothing for granted that is not there, whatever the source is and the tree that it
is read into: with every use of what may be missing checked there is no fault, the source is read to
its last character, and the result is the same. -/
theorem scan_checked (source : String) (tree : Node) :
    Checked.scan source tree = .ok (scanWithEvents source tree, []) := by
  have hstart : (State.start tree).Valid := ⟨OpenScope.valid_begin tree .source, rfl⟩
  obtain ⟨heq, hvalid⟩ := hstart.read trivial source.toList
  refine (Checked.bind_eq heq _).trans ?_
  exact Checked.bind_eq hvalid.founded.unwind _

end HeaderDocs.Scan
