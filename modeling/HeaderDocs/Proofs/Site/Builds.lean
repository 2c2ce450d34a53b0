import HeaderDocs.Site.Build

/-!
# Builds

A build clears the reference, reads the groups one after the other and ends by placing the entry in
the navigation. What is to be shown of all builds is shown of these parts.

* `build_eq`: a build by its parts.
* `invariant_build`: what each group keeps holds after a build.
* `exists_scanGroup_of_build`: the first group of a build was read from the store as it was.
-/
namespace HeaderDocs.Site.Reference

variable {ref : Reference} {store : Store} {g : Group}

/-! ## Parts of a build -/

def withSurroundings (surroundings : Surroundings) (ref : Reference) : Reference :=
  { ref with surroundings }

/-- The reference without what a build has made. -/
def cleared (ref : Reference) : Reference :=
  { ref with groups := [], pages := [], symbols := [], placeholders := [] }

/-- Places the entry of the reference after all groups have been read. -/
def finish (outcome : Outcome) : Outcome :=
  match outcome.error with
  | some _ => outcome
  | none =>
    match outcome.ref.navWith with
    | .error e => { outcome with error := some e }
    | .ok nav =>
      let count := outcome.ref.symbols.length
      let summary : List Message :=
        if count == 0 then []
        else [⟨.info, "apitree: symbol registry built, " ++ toString count ++ " symbols indexed"⟩]
      { outcome with
        ref := outcome.ref.withSurroundings { outcome.ref.surroundings with nav }
        messages := outcome.messages ++ summary }

theorem build_eq (ref : Reference) (store : Store) :
    ref.build store =
      match initialGroups store ref with
      | .error e => { ref := ref.cleared, store, messages := [], error := some e }
      | .ok (groups, messages) => finish (scanGroups ref.cleared store messages groups) := rfl

/-- The entry is placed if the groups have been read and it can be made. -/
theorem error_finish {outcome : Outcome} :
    (finish outcome).error = none ↔
      outcome.error = none ∧ ∃ nav, outcome.ref.navWith = .ok nav := by
  unfold finish
  cases herror : outcome.error with
  | some e => simp [herror]
  | none => cases outcome.ref.navWith <;> simp

theorem ref_finish {outcome : Outcome} {nav : Option (List Setting)} (h : outcome.error = none)
    (hnav : outcome.ref.navWith = .ok nav) :
    (finish outcome).ref =
      outcome.ref.withSurroundings { outcome.ref.surroundings with nav } := by
  rw [finish, h]
  dsimp only
  rw [hnav]

/-- Whether or not the entry is placed, the rest is as it was read. -/
theorem ref_finish_eq (outcome : Outcome) :
    ∃ surroundings, (finish outcome).ref = outcome.ref.withSurroundings surroundings := by
  unfold finish
  split
  · exact ⟨outcome.ref.surroundings, rfl⟩
  · split
    · exact ⟨outcome.ref.surroundings, rfl⟩
    · exact ⟨_, rfl⟩

/-- What a build without errors is made of. -/
theorem exists_of_build (h : (ref.build store).error = none) :
    ∃ groups messages nav, initialGroups store ref = .ok (groups, messages) ∧
      (scanGroups ref.cleared store messages groups).error = none ∧
      (scanGroups ref.cleared store messages groups).ref.navWith = .ok nav ∧
      ref.build store = finish (scanGroups ref.cleared store messages groups) := by
  rw [build_eq] at h ⊢
  cases hinitial : initialGroups store ref with
  | error e =>
    rw [hinitial] at h
    cases h
  | ok initial =>
    rw [hinitial] at h
    obtain ⟨herror, nav, hnav⟩ := error_finish.mp h
    exact ⟨initial.1, initial.2, nav, rfl, herror, hnav, rfl⟩

/-! ## Groups that are read -/

/-- What holds before any group is added and is kept by each of them holds after all of them. -/
theorem invariant_scanGroups {P : Reference → Prop}
    (hadd : ∀ (built : Reference) (store : Store) (g : Group) (read : Group × Store × List Message),
      scanGroup store g = .ok read → P built → P (built.addGroup read.1))
    (h : P ref) (store : Store) (messages : List Message) (groups : List Group) :
    P (scanGroups ref store messages groups).ref := by
  induction groups generalizing ref store messages with
  | nil => exact h
  | cons g groups ih =>
    unfold scanGroups
    cases hread : scanGroup store g with
    | error e => exact h
    | ok read => exact ih (hadd ref store g read hread h) _ _

/-- What is kept by each group that is added, wherever the entry is placed, holds after a build. -/
theorem invariant_build {P : Reference → Prop} (h : P ref.cleared)
    (hadd : ∀ (built : Reference) (store : Store) (g : Group) (read : Group × Store × List Message),
      scanGroup store g = .ok read → P built → P (built.addGroup read.1))
    (hplace : ∀ built surroundings, P built → P (built.withSurroundings surroundings))
    (store : Store) : P (ref.build store).ref := by
  rw [build_eq]
  cases initialGroups store ref with
  | error e => exact h
  | ok initial =>
    obtain ⟨surroundings, hfinish⟩ :=
      ref_finish_eq (scanGroups ref.cleared store initial.2 initial.1)
    dsimp only
    rw [hfinish]
    exact hplace _ _ (invariant_scanGroups hadd h store initial.2 initial.1)

theorem groups_prefix_scanGroups (ref : Reference) (store : Store) (messages : List Message)
    (groups : List Group) :
    ref.groups <+: (scanGroups ref store messages groups).ref.groups :=
  invariant_scanGroups (P := fun built => ref.groups <+: built.groups)
    (fun _ _ _ _ _ h => h.trans (List.prefix_append _ _)) List.prefix_rfl store messages groups

/-- The first group of a build has been read before anything was changed. -/
theorem exists_scanGroup_of_build {rest : List Group}
    (h : (ref.build store).ref.groups = g :: rest) :
    ∃ unread more, scanGroup store unread = .ok (g, more) := by
  rw [build_eq] at h
  cases hinitial : initialGroups store ref with
  | error e =>
    rw [hinitial] at h
    cases h
  | ok initial =>
    rw [hinitial] at h
    have hgroups : (scanGroups ref.cleared store initial.2 initial.1).ref.groups = g :: rest := by
      obtain ⟨surroundings, hfinish⟩ :=
        ref_finish_eq (scanGroups ref.cleared store initial.2 initial.1)
      dsimp only at h
      rwa [hfinish] at h
    cases hfirst : initial.1 with
    | nil =>
      rw [hfirst] at hgroups
      cases hgroups
    | cons unread groups =>
      rw [hfirst] at hgroups
      unfold scanGroups at hgroups
      cases hread : scanGroup store unread with
      | error e =>
        rw [hread] at hgroups
        cases hgroups
      | ok read =>
        rw [hread] at hgroups
        obtain ⟨more, hmore⟩ := groups_prefix_scanGroups (ref.cleared.addGroup read.1) read.2.1
          (initial.2 ++ read.2.2) groups
        obtain ⟨rfl, -⟩ := List.cons.inj (hmore.trans hgroups)
        exact ⟨unread, read.2, hread⟩

/-- Where the directory of a group is there, the group has all pages of its tree. -/
theorem pages_of_scanGroup {unread : Group} {more : Store × List Message}
    (h : scanGroup store unread = .ok (g, more)) (hroot : store.isDirectory g.root = true) :
    g.pages = g.pagesFor g.tree := by
  simp only [scanGroup, bind, Except.bind] at h
  split at h
  · cases h
  · split at h
    · rename_i hmissing
      cases h
      simp [hroot] at hmissing
    · split at h
      · cases h
      · cases h
        rfl

end HeaderDocs.Site.Reference
