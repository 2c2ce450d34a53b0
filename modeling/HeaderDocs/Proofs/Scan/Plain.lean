import HeaderDocs.Proofs.Scan.References

/-!
# Contexts of sources that open no namespace

`Context.Plain` says of a context that belongs to the documentation itself that no keyword of a
namespace has been read in it, and that nothing which is still to be recorded has an access: only
members of records have one.

* `Plain.of_refs`: besides the references only the access and the runs matter.
* `Plain.afterInsert`, `Plain.afterRemove`: changes of the scope keep a context plain.
-/
namespace HeaderDocs.Scan

open HeaderDocs.Node

/-! ## Runs -/

/-- No fragment of the run is the keyword of a namespace. -/
def Run.Plain (run : Run) : Prop := ∀ f ∈ run, f.text ≠ "namespace"

namespace Run.Plain

variable {run : Run}

theorem nil : Run.Plain [] := nofun

theorem sublist {rest : Run} (h : run.Plain) (hs : rest.Sublist run) : rest.Plain :=
  fun f hf => h f (hs.subset hf)

theorem push (h : run.Plain) {text : String} (ht : text ≠ "namespace") (spaced : Bool) :
    (run.push text spaced).Plain := by
  intro f hf
  rcases List.mem_append.mp hf with hf | hf
  · exact h f hf
  · rw [List.mem_singleton.mp hf]
    exact ht

theorem closeUp (h : run.Plain) : run.closeUp.Plain := by
  cases run with
  | nil => exact nil
  | cons f run =>
    intro g hg
    rcases List.mem_cons.mp hg with rfl | hg
    · exact h f (List.mem_cons_self ..)
    · exact h g (List.mem_cons_of_mem _ hg)

/-- The words before a brace do not begin with the keyword of a namespace. -/
theorem texts_ne (h : run.Plain) (words : List String) : run.texts ≠ "namespace" :: words := by
  cases run with
  | nil => exact nofun
  | cons f run =>
    intro he
    exact h f (List.mem_cons_self ..) (List.cons.inj he).1

end Run.Plain

theorem Declarator.plain_type {run : Run} (h : run.Plain) {d : Declarator}
    (hd : Declarator.ofRun? run = some d) : d.type.Plain := by
  unfold Declarator.ofRun? at hd
  dsimp only at hd
  split at hd
  · cases hd
  · cases hd
    refine Run.Plain.closeUp (h.sublist ?_)
    exact (List.take_sublist _ _).trans (List.takeWhile_sublist _)

/-! ## Contexts -/

namespace Context

/-- No keyword of a namespace has been read, and nothing to be recorded has an access. -/
structure Plain (c : Context) : Prop where
  access : c.access = none
  run : c.run.Plain
  base : c.base.Plain
  header : ∀ h, c.header = some h → h.node.hasScope = false
  record : ∀ n, c.record = some (.aside n) → n.hasScope = false
  enumeration : ∀ n, c.enumeration = some (.aside n) → n.hasScope = false
  typeAlias : ∀ n, c.typeAlias = some n → n.hasScope = false

variable {c d : Context}

theorem Plain.of_refs (h : c.Plain) (he : d.refs = c.refs) (ha : d.access = c.access)
    (hrun : d.run.Plain) (hbase : d.base.Plain) : d.Plain := by
  simp only [refs, Prod.mk.injEq] at he
  obtain ⟨h1, h2, h3, h4, -⟩ := he
  exact ⟨ha.trans h.access, hrun, hbase, h1 ▸ h.header, h2 ▸ h.record, h3 ▸ h.enumeration,
    h4 ▸ h.typeAlias⟩

theorem plain_ofScope {scope : Node} (h : scope.kind = .root) : (ofScope scope).Plain :=
  ⟨by simp [ofScope, h], nofun, nofun, nofun, nofun, nofun, nofun⟩

theorem Plain.startRun (h : c.Plain) : c.startRun.Plain := by
  unfold Context.startRun
  split
  · exact h.of_refs rfl rfl h.base .nil
  · exact h

theorem Plain.dropRun (h : c.Plain) : c.dropRun.Plain := h.of_refs rfl rfl .nil h.base

theorem Plain.takeComment (h : c.Plain) : c.takeComment.Plain := h.of_refs rfl rfl h.run h.base

theorem Plain.withClaim (h : c.Plain) (claim : Option (List Claim)) :
    Plain { c with claim } :=
  ⟨h.access, h.run, h.base, h.header, h.record, h.enumeration, h.typeAlias⟩

theorem Plain.pushWord (h : c.Plain) {word : String} (hw : word ≠ "namespace") :
    (c.pushWord word).Plain :=
  have hs := h.startRun
  hs.of_refs rfl rfl (hs.run.push hw _) hs.base

theorem Plain.pushMark (h : c.Plain) {text : String} (ht : text ≠ "namespace") :
    (c.pushMark text).Plain := by
  have hs := h.startRun
  unfold Context.pushMark
  dsimp only
  split
  · exact hs
  · exact hs.of_refs rfl rfl (hs.run.push ht _) hs.base

theorem Plain.pushIfStarted (h : c.Plain) {text : String} (ht : text ≠ "namespace")
    (spaced : Bool) : (c.pushIfStarted text spaced).Plain := by
  unfold Context.pushIfStarted
  split
  · exact h
  · exact h.of_refs rfl rfl (h.run.push ht _) h.base

theorem Plain.pushFragment (h : c.Plain) {text : String} (ht : text ≠ "namespace")
    (spaced : Bool) : (c.pushFragment text spaced).Plain :=
  h.startRun.pushIfStarted ht spaced

theorem Plain.dropHeader (h : c.Plain) : c.dropHeader.Plain :=
  ⟨h.access, h.run, h.base, nofun, h.record, h.enumeration, h.typeAlias⟩

theorem Plain.settleArgument (h : c.Plain) (path : Option Path) : (c.settleArgument path).Plain :=
  h.withClaim _

theorem Plain.addArgument (h : c.Plain) : c.addArgument.Plain := by
  unfold Context.addArgument
  split
  · exact h
  · rename_i head hhead
    split
    · refine ⟨h.access, .nil, h.base, ?_, h.record, h.enumeration, h.typeAlias⟩
      rintro _ ⟨⟩
      exact h.header head hhead
    · exact h.dropRun.withClaim none

theorem Plain.endArgument (h : c.Plain) : c.endArgument.Plain := by
  unfold Context.endArgument
  split
  · exact h.addArgument
  · exact h.dropRun

theorem Plain.openParen (h : c.Plain) : c.openParen.Plain :=
  have hm := h.pushMark (by decide : "(" ≠ "namespace")
  hm.of_refs rfl rfl hm.run hm.base

theorem Plain.closeParen (h : c.Plain) : c.closeParen.Plain := by
  unfold Context.closeParen
  dsimp only
  split
  · have ha := h.endArgument
    exact ⟨ha.access, ha.run, ha.base,
      forall_of_function? (Q := (·.hasScope = false)) (function?_closeArguments c.endArgument)
        ha.header,
      ha.record, ha.enumeration, ha.typeAlias⟩
  · split
    · have hp := h.pushIfStarted (by decide : ")" ≠ "namespace") false
      exact hp.of_refs rfl rfl hp.run hp.base
    · exact h.of_refs rfl rfl h.run h.base

theorem Plain.comma (h : c.Plain) : c.comma.Plain := by
  unfold Context.comma
  split
  · exact h.of_refs rfl rfl h.run h.base
  · split
    · exact h.endArgument
    · exact h.pushIfStarted (by decide) false

theorem Plain.equals (h : c.Plain) : c.equals.Plain := by
  unfold Context.equals
  split
  · exact h.of_refs rfl rfl h.run h.base
  · exact h.pushMark (by decide)

theorem Plain.afterBody (h : c.Plain) : c.afterBody.Plain := by
  refine ⟨h.access, h.run, h.base, h.header, nofun, ?_, h.typeAlias⟩
  intro n hn
  simp only [Context.afterBody] at hn
  split at hn
  · cases hn
  · exact h.enumeration n hn

theorem Plain.afterBlock (h : c.Plain) : c.afterBlock.Plain := by
  have hb := h.afterBody
  unfold Context.afterBlock
  dsimp only
  split
  · exact hb.of_refs rfl rfl hb.run hb.base
  · exact hb.of_refs rfl rfl hb.run hb.base

/-! ## Changes of the scope -/

theorem Plain.afterInsert (h : c.Plain) (place : Path) : (c.afterInsert place).Plain :=
  ⟨h.access, h.run, h.base,
    forall_of_function? (Q := (·.hasScope = false)) (function?_afterInsert place c) h.header,
    Place.forall_aside_afterInsert h.record, Place.forall_aside_afterInsert h.enumeration,
    h.typeAlias⟩

/-- Taking a node out keeps a context plain, if a child that is taken out has no access. -/
theorem Plain.afterRemove (h : c.Plain) {place : Path} {removed : Node}
    (hr : ∀ i, Path.afterRemove? place [i] = none → removed.hasScope = false) :
    (c.afterRemove place removed).Plain :=
  have hremoved : (∃ i, Path.afterRemove? place [i] = none) → removed.hasScope = false :=
    fun ⟨i, hi⟩ => hr i hi
  ⟨h.access, h.run, h.base,
    forall_of_function? (Q := (·.hasScope = false)) (function?_afterRemove place removed c)
      h.header,
    Place.forall_aside_afterRemove h.record hremoved,
    Place.forall_aside_afterRemove h.enumeration hremoved, h.typeAlias⟩

end Context

end HeaderDocs.Scan
