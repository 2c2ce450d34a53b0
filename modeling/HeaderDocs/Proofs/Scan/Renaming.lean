import HeaderDocs.Proofs.Scan.References

/-!
# Contexts in which children are counted differently

Where the same children are found among others, only their positions differ. `Context.mapIndex`
renames the positions that a context refers to and leaves everything else. What a context does by
itself does not depend on positions, so it commutes with renaming.

* `mapIndex_afterInsert`, `mapIndex_afterRemove`: references that follow a change of the scope, when
  the change has been renamed too.
-/
namespace HeaderDocs

/-- Renames the position of the child that a path leads through. -/
def Path.mapHead (φ : Nat → Nat) : Path → Path
  | [] => []
  | i :: path => φ i :: path

namespace Scan

variable {φ ψ : Nat → Nat}

/-! ## Renaming -/

def Place.mapIndex (φ : Nat → Nat) : Place → Place
  | inScope i => inScope (φ i)
  | aside node => aside node

def Claim.mapIndex (φ : Nat → Nat) : Claim → Claim
  | recorded path => recorded (path.mapHead φ)
  | claim => claim

def Header.mapIndex (φ : Nat → Nat) (h : Header) : Header :=
  { h with home := h.home.map (Place.mapIndex φ) }

def Context.mapIndex (φ : Nat → Nat) (c : Context) : Context :=
  { c with
    claim := c.claim.map (·.map (Claim.mapIndex φ))
    header := c.header.map (Header.mapIndex φ)
    record := c.record.map (Place.mapIndex φ)
    enumeration := c.enumeration.map (Place.mapIndex φ) }

theorem Context.mapIndex_id (c : Context) : c.mapIndex id = c := by
  have hplace : Place.mapIndex id = id := funext fun p => by cases p <;> rfl
  have hclaim : Claim.mapIndex id = id := funext fun claim => by
    rcases claim with ⟨_ | _⟩ | _ | _ <;> rfl
  have hheader : Header.mapIndex id = id := funext fun h => by
    simp only [Header.mapIndex, hplace, Option.map_id_fun, id]
  simp only [mapIndex, hplace, hclaim, hheader, List.map_id_fun, Option.map_id_fun, Option.map_id', id]

/-! ## Changes of the scope -/

/-- A change at a place of the one scope is the change at a place of the other: paths follow it in
the same way. -/
def SameInsert (φ ψ : Nat → Nat) (there here : Path) : Prop :=
  ∀ path, Path.afterInsert there (Path.mapHead φ path) = (Path.afterInsert here path).mapHead ψ

def SameRemove (φ ψ : Nat → Nat) (there here : Path) : Prop :=
  ∀ path, Path.afterRemove? there (Path.mapHead φ path) =
    (Path.afterRemove? here path).map (Path.mapHead ψ)

/-- No path leads through the node that is taken out of the one scope only. -/
def Passes (φ ψ : Nat → Nat) (there : Path) : Prop :=
  ∀ path, Path.afterRemove? there (Path.mapHead φ path) = some (Path.mapHead ψ path)

theorem sameInsert_singleton {p q : Nat} (hle : ∀ j, q ≤ φ j ↔ p ≤ j)
    (h : ∀ j, (p ≤ j → ψ (j + 1) = φ j + 1) ∧ (j < p → ψ j = φ j)) : SameInsert φ ψ [q] [p] := by
  intro path
  cases path with
  | nil => rfl
  | cons j path =>
    obtain ⟨hge, hlt⟩ := h j
    simp only [Path.mapHead, Path.afterInsert]
    by_cases hj : p ≤ j
    · rw [if_pos ((hle j).mpr hj), if_pos hj, hge hj]
    · rw [if_neg (mt (hle j).mp hj), if_neg hj, hlt (by omega)]

theorem sameInsert_below (hφ : ∀ i j, φ i = φ j ↔ i = j) (i k : Nat) (rest : Path) :
    SameInsert φ φ (φ i :: k :: rest) (i :: k :: rest) := by
  intro path
  cases path with
  | nil => rfl
  | cons j path =>
    simp only [Path.mapHead, Path.afterInsert, hφ]
    by_cases hij : i = j
    · rw [if_pos hij, if_pos hij]
    · rw [if_neg hij, if_neg hij]

theorem sameRemove_singleton {i : Nat} (hφ : ∀ j, φ i = φ j ↔ i = j)
    (hmono : ∀ j, φ i < φ j ↔ i < j)
    (h : ∀ j, (i < j → ψ (j - 1) = φ j - 1) ∧ (j < i → ψ j = φ j)) : SameRemove φ ψ [φ i] [i] := by
  intro path
  cases path with
  | nil => rfl
  | cons j path =>
    obtain ⟨hlt, hgt⟩ := h j
    simp only [Path.mapHead, Path.afterRemove?, hφ, hmono]
    by_cases hij : i = j
    · rw [if_pos hij, if_pos hij]
      rfl
    · rw [if_neg hij, if_neg hij, Option.map_some]
      by_cases hj : i < j
      · simp only [if_pos hj, Path.mapHead, hlt hj]
      · simp only [if_neg hj, Path.mapHead, hgt (show j < i by omega)]

theorem sameRemove_below (hφ : ∀ i j, φ i = φ j ↔ i = j) (i k : Nat) (rest : Path) :
    SameRemove φ φ (φ i :: k :: rest) (i :: k :: rest) := by
  intro path
  cases path with
  | nil => rfl
  | cons j path =>
    simp only [Path.mapHead, Path.afterRemove?, hφ]
    by_cases hij : i = j
    · subst hij
      rw [if_pos rfl, if_pos rfl, Option.map_map]
      rfl
    · rw [if_neg hij, if_neg hij]
      rfl

theorem passes_singleton {i : Nat}
    (h : ∀ j, φ j ≠ i ∧ (i < φ j → ψ j = φ j - 1) ∧ (φ j < i → ψ j = φ j)) : Passes φ ψ [i] := by
  intro path
  cases path with
  | nil => rfl
  | cons j path =>
    obtain ⟨hne, hlt, hgt⟩ := h j
    simp only [Path.mapHead, Path.afterRemove?]
    rw [if_neg (Ne.symm hne)]
    by_cases hj : i < φ j
    · rw [if_pos hj, hlt hj]
    · rw [if_neg hj, hgt (by omega)]

/-! ## References after a change -/

theorem length_afterInsert (place path : Path) :
    (Path.afterInsert place path).length = path.length := by
  induction place generalizing path with
  | nil => rfl
  | cons i place ih =>
    cases path with
    | nil => cases place <;> rfl
    | cons j path =>
      cases place with
      | nil => rfl
      | cons k place =>
        simp only [Path.afterInsert]
        split
        · simpa using ih path
        · rfl

theorem length_afterRemove? {place path after : Path}
    (h : Path.afterRemove? place path = some after) : after.length = path.length := by
  induction place generalizing path after with
  | nil => cases h
  | cons i place ih =>
    cases path with
    | nil =>
      have : after = [] := by cases place <;> exact (Option.some.inj h).symm
      rw [this]
    | cons j path =>
      cases place with
      | nil =>
        simp only [Path.afterRemove?] at h
        split at h
        · cases h
        · cases h
          rfl
      | cons k place =>
        simp only [Path.afterRemove?] at h
        split at h
        · obtain ⟨rest, hrest, rfl⟩ := Option.map_eq_some_iff.mp h
          simpa using ih hrest
        · cases h
          rfl

namespace Place

theorem mapIndex_afterInsert {there here : Path} (h : SameInsert φ ψ there here) (p : Place) :
    (p.mapIndex φ).afterInsert there = (p.afterInsert here).mapIndex ψ := by
  cases p with
  | aside node => rfl
  | inScope i =>
    have hi := h [i]
    obtain ⟨j, hj⟩ := List.length_eq_one_iff.mp (length_afterInsert here [i])
    simp only [Path.mapHead, hj] at hi
    simp only [mapIndex, afterInsert, hi, hj]

theorem mapIndex_afterRemove {there here : Path} (h : SameRemove φ ψ there here) (removed : Node)
    (p : Place) :
    (p.mapIndex φ).afterRemove there removed = (p.afterRemove here removed).mapIndex ψ := by
  cases p with
  | aside node => rfl
  | inScope i =>
    have hi := h [i]
    simp only [Path.mapHead] at hi
    simp only [mapIndex, afterRemove]
    cases hr : Path.afterRemove? here [i] with
    | none => simp only [hi, hr, Option.map_none]
    | some path =>
      obtain ⟨j, rfl⟩ := List.length_eq_one_iff.mp (length_afterRemove? hr)
      simp only [hi, hr, Option.map_some, Path.mapHead]

theorem mapIndex_passes {there : Path} (h : Passes φ ψ there) (removed : Node) (p : Place) :
    (p.mapIndex φ).afterRemove there removed = p.mapIndex ψ := by
  cases p with
  | aside node => rfl
  | inScope i =>
    have hi := h [i]
    simp only [Path.mapHead] at hi
    simp only [mapIndex, afterRemove, hi]

end Place

namespace Context

theorem mapIndex_afterInsert {there here : Path} (h : SameInsert φ ψ there here) (c : Context) :
    (c.mapIndex φ).afterInsert there = (c.afterInsert here).mapIndex ψ := by
  have hplace : Place.afterInsert there ∘ Place.mapIndex φ =
      Place.mapIndex ψ ∘ Place.afterInsert here :=
    funext fun p => p.mapIndex_afterInsert h
  have hclaim : Claim.afterInsert there ∘ Claim.mapIndex φ =
      Claim.mapIndex ψ ∘ Claim.afterInsert here := by
    funext claim
    cases claim with
    | recorded path => exact congrArg Claim.recorded (h path)
    | argument => rfl
    | constant i => rfl
  simp only [mapIndex, afterInsert, Option.map_map, Function.comp_def, Header.mapIndex,
    List.map_map] at *
  simp only [hplace, hclaim]

theorem mapIndex_afterRemove {there here : Path} (h : SameRemove φ ψ there here) (removed : Node)
    (c : Context) :
    (c.mapIndex φ).afterRemove there removed = (c.afterRemove here removed).mapIndex ψ := by
  have hplace : Place.afterRemove there removed ∘ Place.mapIndex φ =
      Place.mapIndex ψ ∘ Place.afterRemove here removed :=
    funext fun p => p.mapIndex_afterRemove h removed
  have hclaim : (fun claim => Claim.afterRemove? there (Claim.mapIndex φ claim)) =
      fun claim => (Claim.afterRemove? here claim).map (Claim.mapIndex ψ) := by
    funext claim
    cases claim with
    | recorded path =>
      simp only [Claim.mapIndex, Claim.afterRemove?, h path, Option.map_map]
      rfl
    | argument => rfl
    | constant i => rfl
  simp only [mapIndex, afterRemove, Option.map_map, Function.comp_def, Header.mapIndex,
    List.filterMap_map, List.map_filterMap] at *
  simp only [hplace, hclaim]

/-- References pass over a removal that concerns none of them. -/
theorem mapIndex_passes {there : Path} (h : Passes φ ψ there) (removed : Node) (c : Context) :
    (c.mapIndex φ).afterRemove there removed = c.mapIndex ψ := by
  have hplace : Place.afterRemove there removed ∘ Place.mapIndex φ = Place.mapIndex ψ :=
    funext fun p => p.mapIndex_passes h removed
  have hclaim : (fun claim => Claim.afterRemove? there (Claim.mapIndex φ claim)) =
      fun claim => some (Claim.mapIndex ψ claim) := by
    funext claim
    cases claim with
    | recorded path => simp only [Claim.mapIndex, Claim.afterRemove?, h path, Option.map_some]
    | argument => rfl
    | constant i => rfl
  simp only [mapIndex, afterRemove, Option.map_map, Function.comp_def, Header.mapIndex,
    List.filterMap_map] at *
  simp only [hplace, hclaim, List.filterMap_eq_map']
  rfl

/-! ## What a context does by itself -/

@[simp] theorem startRun_mapIndex (c : Context) : (c.mapIndex φ).startRun = c.startRun.mapIndex φ := by
  unfold startRun
  change (if c.run.isEmpty then _ else _) = _
  split <;> rfl

@[simp] theorem dropRun_mapIndex (c : Context) : (c.mapIndex φ).dropRun = c.dropRun.mapIndex φ := rfl

@[simp] theorem takeComment_mapIndex (c : Context) :
    (c.mapIndex φ).takeComment = c.takeComment.mapIndex φ := rfl

@[simp] theorem endLine_mapIndex (c : Context) : (c.mapIndex φ).endLine = c.endLine.mapIndex φ := rfl

@[simp] theorem pushWord_mapIndex (c : Context) (word : String) :
    (c.mapIndex φ).pushWord word = (c.pushWord word).mapIndex φ := by
  unfold pushWord
  rw [startRun_mapIndex]
  rfl

@[simp] theorem pushMark_mapIndex (c : Context) (text : String) :
    (c.mapIndex φ).pushMark text = (c.pushMark text).mapIndex φ := by
  unfold pushMark
  rw [startRun_mapIndex]
  change (if c.startRun.run.isEmpty then _ else _) = _
  dsimp only
  split <;> rfl

@[simp] theorem pushIfStarted_mapIndex (c : Context) (text : String) (spaced : Bool) :
    (c.mapIndex φ).pushIfStarted text spaced = (c.pushIfStarted text spaced).mapIndex φ := by
  unfold pushIfStarted
  change (if c.run.isEmpty then _ else _) = _
  split <;> rfl

@[simp] theorem pushFragment_mapIndex (c : Context) (text : String) (spaced : Bool) :
    (c.mapIndex φ).pushFragment text spaced = (c.pushFragment text spaced).mapIndex φ := by
  rw [pushFragment, startRun_mapIndex, pushIfStarted_mapIndex]
  rfl

@[simp] theorem dropHeader_mapIndex (c : Context) :
    (c.mapIndex φ).dropHeader = c.dropHeader.mapIndex φ := by
  have hfilter : ∀ claims : List Claim, (claims.map (Claim.mapIndex φ)).filter (· != .argument) =
      (claims.filter (· != .argument)).map (Claim.mapIndex φ) := by
    intro claims
    rw [List.filter_map]
    congr 1
    refine List.filter_congr fun claim _ => ?_
    cases claim <;> rfl
  simp only [dropHeader, mapIndex, Option.map_map, Function.comp_def, hfilter, Option.map_none]

theorem settleArgument_mapIndex (c : Context) (path : Option Path) :
    (c.mapIndex φ).settleArgument (path.map (Path.mapHead φ)) =
      (c.settleArgument path).mapIndex φ := by
  unfold settleArgument
  simp only [mapIndex, Option.map_map, Function.comp_def, List.filterMap_map, List.map_filterMap]
  congr 3
  funext claims
  congr 1
  funext claim
  cases claim with
  | argument => cases path <;> rfl
  | recorded q => rfl
  | constant i => rfl

@[simp] theorem addArgument_mapIndex (c : Context) :
    (c.mapIndex φ).addArgument = c.addArgument.mapIndex φ := by
  obtain ⟨_, _, _, run, _, _, _, _, _, header, _, _, _, _⟩ := c
  cases header with
  | none => rfl
  | some h =>
    simp only [addArgument, mapIndex, Option.map_some]
    cases Declarator.ofRun? run with
    | none => rfl
    | some d => rfl

@[simp] theorem inArguments_mapIndex (c : Context) : (c.mapIndex φ).inArguments = c.inArguments := by
  simp only [inArguments, mapIndex]
  cases c.header <;> rfl

@[simp] theorem endArgument_mapIndex (c : Context) :
    (c.mapIndex φ).endArgument = c.endArgument.mapIndex φ := by
  unfold endArgument
  rw [addArgument_mapIndex, dropRun_mapIndex]
  change (if 1 < c.run.length then _ else _) = _
  split <;> rfl

@[simp] theorem openParen_mapIndex (c : Context) :
    (c.mapIndex φ).openParen = c.openParen.mapIndex φ := by
  unfold openParen
  rw [pushMark_mapIndex]
  rfl

@[simp] theorem closeParen_mapIndex (c : Context) :
    (c.mapIndex φ).closeParen = c.closeParen.mapIndex φ := by
  unfold closeParen
  rw [inArguments_mapIndex, endArgument_mapIndex, pushIfStarted_mapIndex,
    show (c.mapIndex φ).parens = c.parens from rfl]
  dsimp only
  split
  · simp only [mapIndex, Option.map_map]
    rfl
  · split <;> rfl

@[simp] theorem inEnumeration_mapIndex (c : Context) :
    (c.mapIndex φ).inEnumeration = c.inEnumeration := by
  simp only [inEnumeration, mapIndex, Option.isSome_map]
  rfl

@[simp] theorem comma_mapIndex (c : Context) : (c.mapIndex φ).comma = c.comma.mapIndex φ := by
  unfold comma
  rw [inEnumeration_mapIndex, inArguments_mapIndex, endArgument_mapIndex, pushIfStarted_mapIndex]
  split
  · rfl
  · split <;> rfl

@[simp] theorem equals_mapIndex (c : Context) : (c.mapIndex φ).equals = c.equals.mapIndex φ := by
  unfold equals
  rw [inEnumeration_mapIndex, pushMark_mapIndex]
  split <;> rfl

@[simp] theorem afterBody_mapIndex (c : Context) :
    (c.mapIndex φ).afterBody = c.afterBody.mapIndex φ := by
  unfold afterBody
  rw [show (c.mapIndex φ).typeAlias = c.typeAlias from rfl]
  split <;> rfl

@[simp] theorem afterBlock_mapIndex (c : Context) :
    (c.mapIndex φ).afterBlock = c.afterBlock.mapIndex φ := by
  unfold afterBlock
  rw [afterBody_mapIndex, show (c.mapIndex φ).braces = c.braces from rfl]
  dsimp only
  split <;> rfl

end Context

end Scan

end HeaderDocs
