import HeaderDocs.Proofs.Files.PathName
import HeaderDocs.Proofs.Files.Store
import Mathlib.Data.List.Induction

/-!
# Stores in which everything lies in a directory

In a `Rooted` store whatever is not at the top lies in a directory, and so does that. A path name
without `..` then leads to one location (`location`), if there is a directory around it.

* `Rooted.locate`: what is found by a path name.
* `Rooted.ensureDirectory`, `Rooted.makeDirectories`: what is there after directories were made.
* `Rooted.isEmptyDirectory_iff`, `Rooted.removeDirectory`: empty directories.
-/
namespace HeaderDocs.Store

open PathName

/-- Whatever is not at the top lies in a directory. -/
def Rooted (s : Store) : Prop :=
  ∀ l name, s.entryAt? (l ++ [name]) ≠ none → s.entryAt? l = some .directory

/-- Where a path name without `..` leads. -/
def location (s : Store) (path : String) : Location := s.origin path ++ components path

variable {s s' : Store} {path docs : String} {l m : Location} {name : String} {down : List String}

/-! ## Locations -/

/-- There is nothing in a directory. -/
theorem isEmpty_inside_iff :
    (s.inside l).isEmpty = true ↔ ∀ name, s.entryAt? (l ++ [name]) = none := by
  have hentry : ∀ name, s.entryAt? (l ++ [name]) = (s.entries.find? (·.1 == l ++ [name])).map (·.2) := by
    intro name
    rw [entryAt?, if_neg (by simp)]
  simp only [hentry, Option.map_eq_none_iff, List.find?_eq_none, beq_iff_eq, inside,
    List.isEmpty_iff, List.filter_eq_nil_iff, Bool.and_eq_true, Bool.not_eq_true',
    List.isEmpty_eq_false_iff, not_and]
  constructor
  · rintro h name ⟨k, e⟩ hx rfl
    exact h _ hx (by simp) List.dropLast_concat
  · rintro h ⟨k, e⟩ hx hne rfl
    exact h (k.getLast hne) _ hx (List.dropLast_concat_getLast hne).symm

theorem mem_entries_of_entryAt? (h : s.entryAt? l ≠ none) (hne : l ≠ []) :
    l ∈ s.entries.map (·.1) := by
  rw [entryAt?, if_neg (by simpa using hne)] at h
  obtain ⟨e, he⟩ := Option.ne_none_iff_exists'.mp h
  obtain ⟨x, hx, -⟩ := Option.map_eq_some_iff.mp he
  have hfound := List.find?_some hx
  exact List.mem_map.mpr ⟨x, List.mem_of_find?_eq_some hx, eq_of_beq hfound⟩

theorem rooted_iff : s.Rooted ↔ ∀ x ∈ s.entries, s.entryAt? x.1.dropLast = some .directory := by
  constructor
  · rintro h ⟨l, e⟩ hx
    rcases List.eq_nil_or_concat l with rfl | ⟨init, name, hconcat⟩
    · rfl
    · obtain rfl : l = init ++ [name] := hconcat.trans (List.concat_eq_append ..)
      refine List.dropLast_concat.symm ▸ h init name fun hnone => ?_
      rw [entryAt?, if_neg (by simp), Option.map_eq_none_iff, List.find?_eq_none] at hnone
      exact hnone _ hx (beq_self_eq_true _)
  · intro h l name hsome
    obtain ⟨x, hx, hl⟩ := List.mem_map.mp (mem_entries_of_entryAt? hsome (by simp))
    have hd := h x hx
    rwa [hl, List.dropLast_concat] at hd

instance : Decidable s.Rooted := decidable_of_iff _ rooted_iff.symm

namespace Rooted

/-- Whatever there is lies in directories up to the top. -/
theorem ancestor (h : s.Rooted) (hl : s.entryAt? (l ++ down) ≠ none) (hne : down ≠ []) :
    s.entryAt? l = some .directory := by
  induction down generalizing l with
  | nil => exact absurd rfl hne
  | cons name down ih =>
    refine h l name ?_
    cases down with
    | nil => exact hl
    | cons other down =>
      rw [List.append_cons] at hl
      rw [ih hl (List.cons_ne_nil _ _)]
      exact Option.some_ne_none _

/-- A new directory, or a file where there is nothing below. -/
theorem put (h : s.Rooted) {e : Entry} (hl : l ≠ []) (hparent : s.entryAt? l.dropLast = some .directory)
    (he : e = .directory ∨ s.entryAt? l ≠ some .directory) : (s.put l e).Rooted := by
  intro k name hk
  have hhere := entryAt?_put s hl e
  by_cases hkl : k = l
  · subst hkl
    rw [hhere]
    rcases he with rfl | hno
    · rfl
    · have hne : k ++ [name] ≠ k := by simp
      rw [entryAt?_put_of_ne s hne] at hk
      exact absurd (h k name hk) hno
  · rw [entryAt?_put_of_ne s hkl]
    by_cases hnl : k ++ [name] = l
    · rw [← hnl, List.dropLast_concat] at hparent
      exact hparent
    · rw [entryAt?_put_of_ne s hnl] at hk
      exact h k name hk

/-- Nothing is left behind when something is taken away that holds nothing. -/
theorem delete (h : s.Rooted) (hl : ∀ name, s.entryAt? (l ++ [name]) = none) : (s.delete l).Rooted := by
  intro k name hk
  have hkl : k ≠ l := by
    rintro rfl
    have hne : k ++ [name] ≠ k := by simp
    rw [entryAt?_delete_of_ne s hne] at hk
    exact hk (hl name)
  rw [entryAt?_delete_of_ne s hkl]
  by_cases hnl : k ++ [name] = l
  · rw [hnl, entryAt?_delete s (hnl ▸ by simp)] at hk
    exact absurd rfl hk
  · rw [entryAt?_delete_of_ne s hnl] at hk
    exact h k name hk

end Rooted

/-! ## Path names -/

/-- A path name without `..` leads to its location, if it leads anywhere. -/
theorem eq_append_of_follow (hups : ".." ∉ down) (h : s.follow l down = .ok m) : m = l ++ down := by
  induction down generalizing l with
  | nil => exact (Except.ok.inj h).symm.trans (List.append_nil l).symm
  | cons name down ih =>
    have hname : (name == "..") = false :=
      beq_eq_false_iff_ne.mpr fun he => hups (he ▸ List.mem_cons_self ..)
    unfold follow at h
    split at h
    · rw [hname] at h
      rw [ih (fun hm => hups (List.mem_cons_of_mem _ hm)) h]
      exact (List.append_cons ..).symm
    · cases h
    · cases h

/-- A path name without `..` leads through directories. -/
theorem entryAt?_of_follow {below : List String} (hups : ".." ∉ down)
    (h : s.follow l (down ++ below) = .ok m) (hne : below ≠ []) :
    s.entryAt? (l ++ down) = some .directory := by
  induction down generalizing l with
  | nil =>
    obtain ⟨name, below, rfl⟩ := List.exists_cons_of_ne_nil hne
    rw [List.append_nil]
    rw [List.nil_append] at h
    unfold follow at h
    split at h
    · assumption
    · cases h
    · cases h
  | cons name down ih =>
    have hname : (name == "..") = false :=
      beq_eq_false_iff_ne.mpr fun he => hups (he ▸ List.mem_cons_self ..)
    rw [List.cons_append] at h
    unfold follow at h
    split at h
    · rw [hname] at h
      rw [List.append_cons]
      exact ih (fun hm => hups (List.mem_cons_of_mem _ hm)) h
    · cases h
    · cases h

namespace Rooted

theorem follow (h : s.Rooted) (hups : ".." ∉ down) (hd : s.entryAt? (l ++ down.dropLast) = some .directory) :
    s.follow l down = .ok (l ++ down) := by
  induction down generalizing l with
  | nil => rw [List.append_nil]; rfl
  | cons name down ih =>
    have hname : (name == "..") = false :=
      beq_eq_false_iff_ne.mpr fun he => hups (he ▸ List.mem_cons_self ..)
    have hups : ".." ∉ down := fun hm => hups (List.mem_cons_of_mem _ hm)
    have hl : s.entryAt? l = some .directory := by
      cases down with
      | nil => exact (List.append_nil l) ▸ hd
      | cons other down =>
        exact h.ancestor (by rw [hd]; exact Option.some_ne_none _) (by simp)
    unfold Store.follow
    rw [hl, hname]
    cases down with
    | nil => rfl
    | cons other down =>
      rw [List.dropLast_cons_cons, List.append_cons] at hd
      exact (ih hups hd).trans (congrArg _ (List.append_cons ..).symm)

/-- What is found by a path name, where there is a directory around it. -/
theorem locate (h : s.Rooted) (hp : path.isEmpty = false) (hups : ".." ∉ components path)
    (hneeds : ∀ bytes, s.entryAt? (s.location path) = some (.file bytes) → needsDirectory path = false)
    (hd : s.entryAt? (s.origin path ++ (components path).dropLast) = some .directory) :
    s.locate path = .ok (s.location path, s.entryAt? (s.location path)) :=
  locate_eq_ok.mpr ⟨hp, h.follow hups hd, rfl, hneeds⟩

theorem isDirectory (h : s.Rooted) (hp : path.isEmpty = false) (hups : ".." ∉ components path)
    (hd : s.entryAt? (s.location path) = some .directory) : s.isDirectory path = true := by
  refine isDirectory_iff.mpr ⟨_, hd ▸ h.locate hp hups (fun _ hf => ?_) ?_⟩
  · rw [hd] at hf
    cases hf
  · rw [location] at hd
    rcases List.eq_nil_or_concat (components path) with hnil | ⟨init, name, hconcat⟩
    · rw [hnil] at hd ⊢
      exact hd
    · rw [hconcat, List.concat_eq_append, ← List.append_assoc] at hd
      rw [hconcat, List.concat_eq_append, List.dropLast_concat]
      exact h _ name (by rw [hd]; exact Option.some_ne_none _)

end Rooted

theorem eq_location_of_locate {e : Option Entry} (hups : ".." ∉ components path)
    (h : s.locate path = .ok (l, e)) : l = s.location path ∧ s.entryAt? (s.location path) = e := by
  obtain ⟨-, hfollow, hentry, -⟩ := locate_eq_ok.mp h
  obtain rfl := eq_append_of_follow hups hfollow
  exact ⟨rfl, hentry⟩

/-! ## Path names that lead down from a directory -/

theorem location_under (h : Under docs down path) : s.location path = s.location docs ++ down := by
  rw [location, location, h.components, origin, origin, h.isAbsolute, List.append_assoc]

theorem ups_under (hups : ".." ∉ components docs) (h : Under docs down path) :
    ".." ∉ components path := by
  rw [h.components, List.mem_append]
  exact fun hm => hm.elim hups fun hm => (h.plain _ hm).2 rfl

/-! ## Making directories one after the other -/

theorem makeEach_append {paths more : List String} (h : s.makeEach paths = (s', none)) :
    s.makeEach (paths ++ more) = s'.makeEach more := by
  induction paths generalizing s with
  | nil =>
    cases h
    rfl
  | cons path paths ih =>
    unfold makeEach at h
    rw [List.cons_append, makeEach]
    split at h
    · exact ih h
    · rename_i e he
      split at h
      · rename_i hcause
        rw [if_pos (by simp_all)]
        exact ih h
      · cases h

/-- The directories around a path name have path names that it begins with. -/
theorem mem_directoriesAround_head {count : Nat} {head : String}
    (h : (directoriesAround count path).head? = some head) :
    head.isEmpty = false ∧ slashes head = slashes path ∧ components head <+: components path := by
  have hinner : slashes (if baseName path == "" then dirName path else path) = slashes path ∧
      names (if baseName path == "" then dirName path else path) <+: names path := by
    split
    · exact ⟨slashes_dirName path, names_prefix_dirName path⟩
    · exact ⟨rfl, List.prefix_rfl⟩
  cases count with
  | zero => cases h
  | succ count =>
    rw [directoriesAround] at h
    generalize (if baseName path == "" then dirName path else path) = inner at h hinner
    split at h
    · cases h
    · rename_i hhead
      obtain rfl : dirName inner = head := Option.some.inj h
      simp only [Bool.or_eq_true, not_or, Bool.not_eq_true] at hhead
      refine ⟨hhead.1, (slashes_dirName inner).trans hinner.1, ?_⟩
      rw [components_eq, components_eq]
      exact ((names_prefix_dirName inner).trans hinner.2).filter _

/-- Where a directory is, there are those around it. -/
theorem Rooted.takeWhile_around (h : s.Rooted) (hups : ".." ∉ components path)
    (hd : s.entryAt? (s.location path) = some .directory) (count : Nat) :
    (directoriesAround count path).takeWhile (fun p => !s.exists? p) = [] := by
  cases hall : directoriesAround count path with
  | nil => rfl
  | cons head paths =>
    obtain ⟨hhead, hslashes, rest, hrest⟩ := mem_directoriesAround_head (congrArg List.head? hall)
    have hlocation : s.location path = s.location head ++ rest := by
      rw [location, location, origin, origin, isAbsolute_eq, isAbsolute_eq, hslashes, ← hrest,
        List.append_assoc]
    have hexists : s.exists? head = true := by
      refine exists?_of_isDirectory (h.isDirectory hhead (fun hm => hups ?_) ?_)
      · rw [← hrest]
        exact List.mem_append_left _ hm
      · rw [hlocation] at hd
        by_cases hempty : rest = []
        · rwa [hempty, List.append_nil] at hd
        · exact h.ancestor (by rw [hd]; exact Option.some_ne_none _) hempty
    rw [List.takeWhile_cons_of_neg (by simp [hexists])]

/-- What is around a path name that leads down comes from leaving out its last name. -/
theorem directoriesAround_under (hdocs : docs.isEmpty = false) (hu : Under docs (down ++ [name]) path)
    (count : Nat) :
    directoriesAround (count + 1) path = dirName path :: directoriesAround count (dirName path) := by
  have hbase : (baseName path == "") = false := beq_eq_false_iff_ne.mpr (hu.named (by simp))
  have hhead := hu.dirName.1.isEmpty hdocs
  rw [directoriesAround]
  simp only [hbase, Bool.false_eq_true, if_false, hhead, Bool.or_self]

/-! ## Below a directory -/

namespace Rooted

theorem parent (h : s.Rooted) (hl : s.entryAt? (l ++ (down ++ [name])) ≠ none) :
    s.entryAt? (l ++ down) = some .directory :=
  h _ name (by rwa [List.append_assoc])

section

variable (h : s.Rooted) (hdocs : docs.isEmpty = false) (hups : ".." ∉ components docs)

include h hdocs hups

/-- What is found by a path name below a directory. -/
theorem locate_under (hu : Under docs (down ++ [name]) path)
    (hd : s.entryAt? (s.location docs ++ down) = some .directory) :
    s.locate path =
      .ok (s.location docs ++ (down ++ [name]), s.entryAt? (s.location docs ++ (down ++ [name]))) := by
  rw [← location_under hu]
  refine h.locate (hu.isEmpty hdocs) (ups_under hups hu) (fun _ _ => (hu.named_plain (by simp)).1) ?_
  rw [hu.components, ← List.append_assoc, List.dropLast_concat]
  rw [location, origin] at hd
  rw [← List.append_assoc, origin, hu.isAbsolute]
  exact hd

theorem exists?_under (hu : Under docs (down ++ [name]) path) :
    s.exists? path = (s.entryAt? (s.location docs ++ (down ++ [name]))).isSome := by
  cases hentry : s.entryAt? (s.location docs ++ (down ++ [name])) with
  | none =>
    refine Bool.eq_false_iff.mpr fun hexists => ?_
    obtain ⟨l, e, hlocate⟩ := exists?_iff.mp hexists
    have hsome := (eq_location_of_locate (ups_under hups hu) hlocate).2
    rw [location_under hu, hentry] at hsome
    cases hsome
  | some e =>
    have hd := h.parent (by rw [hentry]; exact Option.some_ne_none _)
    exact exists?_iff.mpr ⟨_, e, hentry ▸ h.locate_under hdocs hups hu hd⟩

theorem write (hu : Under docs (down ++ [name]) path)
    (hd : s.entryAt? (s.location docs ++ down) = some .directory)
    (hfree : s.entryAt? (s.location docs ++ (down ++ [name])) ≠ some .directory) (bytes : List UInt8) :
    s.write path bytes = .ok (s.put (s.location docs ++ (down ++ [name])) (.file bytes)) := by
  obtain ⟨hempty, hfollow, -, -⟩ := locate_eq_ok.mp (h.locate_under hdocs hups hu hd)
  have hplain := hu.named_plain (by simp)
  exact LeadsToFile.write ⟨hempty, hfollow, hplain.1, hplain.2, hfree⟩ bytes

theorem removeFile (hu : Under docs (down ++ [name]) path) {bytes : List UInt8}
    (hentry : s.entryAt? (s.location docs ++ (down ++ [name])) = some (.file bytes)) :
    s.removeFile path = .ok (s.delete (s.location docs ++ (down ++ [name]))) := by
  have hd := h.parent (by rw [hentry]; exact Option.some_ne_none _)
  rw [Store.removeFile, h.locate_under hdocs hups hu hd, hentry]

theorem isEmptyDirectory_iff (hu : Under docs (down ++ [name]) path) :
    s.isEmptyDirectory path = true ↔
      s.entryAt? (s.location docs ++ (down ++ [name])) = some .directory ∧
        ∀ inner, s.entryAt? (s.location docs ++ (down ++ [name]) ++ [inner]) = none := by
  rw [← isEmpty_inside_iff]
  constructor
  · intro hempty
    unfold isEmptyDirectory at hempty
    split at hempty
    · rename_i l hlocate
      obtain ⟨rfl, hentry⟩ := eq_location_of_locate (ups_under hups hu) hlocate
      rw [location_under hu] at hentry hempty
      exact ⟨hentry, hempty⟩
    · cases hempty
  · rintro ⟨hentry, hinside⟩
    have hd := h.parent (by rw [hentry]; exact Option.some_ne_none _)
    rw [isEmptyDirectory, h.locate_under hdocs hups hu hd, hentry]
    exact hinside

theorem removeDirectory (hu : Under docs (down ++ [name]) path)
    (hempty : s.isEmptyDirectory path = true) :
    s.removeDirectory path = .ok (s.delete (s.location docs ++ (down ++ [name]))) := by
  obtain ⟨hentry, hinside⟩ := (h.isEmptyDirectory_iff hdocs hups hu).mp hempty
  have hd := h.parent (by rw [hentry]; exact Option.some_ne_none _)
  rw [Store.removeDirectory, h.locate_under hdocs hups hu hd, hentry]
  simp only [isEmpty_inside_iff.mpr hinside, (hu.named_plain (by simp)).2, Bool.not_false,
    Bool.and_self, if_true]

theorem ensureDirectory (hu : Under docs (down ++ [name]) path)
    (hd : s.entryAt? (s.location docs ++ down) = some .directory)
    (hfree : ∀ bytes, s.entryAt? (s.location docs ++ (down ++ [name])) ≠ some (.file bytes)) :
    ∃ s', s.ensureDirectory path = .ok s' ∧ s'.cwd = s.cwd ∧ s'.Rooted ∧
      s'.entryAt? (s.location docs ++ (down ++ [name])) = some .directory ∧
      ∀ m, m ≠ s.location docs ++ (down ++ [name]) → s'.entryAt? m = s.entryAt? m := by
  have hlocate := h.locate_under hdocs hups hu hd
  have hne : s.location docs ++ (down ++ [name]) ≠ [] := by simp
  cases hentry : s.entryAt? (s.location docs ++ (down ++ [name])) with
  | none =>
    rw [hentry] at hlocate
    refine ⟨s.put (s.location docs ++ (down ++ [name])) .directory, ?_, rfl, ?_, entryAt?_put s hne _,
      fun m hm => entryAt?_put_of_ne s hm _⟩
    · rw [Store.ensureDirectory, makeDirectory, hlocate]
    · refine h.put hne ?_ (.inl rfl)
      rw [← List.append_assoc, List.dropLast_concat]
      exact hd
  | some e =>
    cases e with
    | file bytes => exact absurd hentry (hfree bytes)
    | directory =>
      rw [hentry] at hlocate
      exact ⟨s, ensureDirectory_of_isDirectory (isDirectory_iff.mpr ⟨_, hlocate⟩), rfl, h, hentry,
        fun _ _ => rfl⟩

/-- The directories that are made on the way down from one that is there. -/
theorem makeEach_around (hd : s.entryAt? (s.location docs) = some .directory)
    (hu : Under docs down path)
    (hfree : ∀ above, above <+: down → ∀ bytes,
      s.entryAt? (s.location docs ++ above) ≠ some (.file bytes)) {count : Nat}
    (hcount : down.length ≤ count) :
    ∃ s', s.makeEach (((directoriesAround count path).takeWhile fun p => !s.exists? p).reverse ++ [path]) =
        (s', none) ∧
      s'.cwd = s.cwd ∧ s'.Rooted ∧ s'.entryAt? (s.location docs ++ down) = some .directory ∧
      ∀ m, (∀ above, above ≠ [] → above <+: down → m ≠ s.location docs ++ above) →
        s'.entryAt? m = s.entryAt? m := by
  induction down using List.reverseRecOn generalizing path count with
  | nil =>
    have hlocation : s.location path = s.location docs := by
      rw [location_under hu]
      exact List.append_nil _
    have hups := ups_under hups hu
    rw [← hlocation] at hd
    rw [h.takeWhile_around hups hd, List.reverse_nil, List.nil_append, makeEach,
      ensureDirectory_of_isDirectory (h.isDirectory (hu.isEmpty hdocs) hups hd)]
    rw [List.append_nil, ← hlocation]
    exact ⟨s, rfl, rfl, h, hd, fun _ _ => rfl⟩
  | append_singleton down name ih =>
    have hbelow : down <+: down ++ [name] := List.prefix_append _ _
    have hinner := hu.dirName.1
    obtain ⟨count, rfl⟩ : ∃ c, count = c + 1 := ⟨count - 1, by simp at hcount; omega⟩
    have hcount : down.length ≤ count := by simpa using hcount
    -- the directory around is there already, or is made before
    obtain ⟨made, hmade, hcwd, hrooted, hparent, hsame⟩ : ∃ made,
        s.makeEach ((directoriesAround (count + 1) path).takeWhile fun p => !s.exists? p).reverse =
          (made, none) ∧ made.cwd = s.cwd ∧ made.Rooted ∧
        made.entryAt? (s.location docs ++ down) = some .directory ∧
        ∀ m, (∀ above, above ≠ [] → above <+: down → m ≠ s.location docs ++ above) →
          made.entryAt? m = s.entryAt? m := by
      rw [directoriesAround_under hdocs hu]
      cases hexists : s.exists? (dirName path) with
      | true =>
        rw [List.takeWhile_cons_of_neg (by simp [hexists])]
        obtain ⟨l, e, hlocate⟩ := exists?_iff.mp hexists
        obtain ⟨-, hentry⟩ := eq_location_of_locate (ups_under hups hinner) hlocate
        rw [location_under hinner] at hentry
        cases e with
        | file bytes => exact absurd hentry (hfree down hbelow bytes)
        | directory => exact ⟨s, rfl, rfl, h, hentry, fun _ _ => rfl⟩
      | false =>
        rw [List.takeWhile_cons_of_pos (by simp [hexists]), List.reverse_cons]
        exact ih hinner (fun above ha => hfree above (ha.trans hbelow)) hcount
    have hdocs' : made.location docs = s.location docs := by
      rw [location, location, origin, origin, hcwd]
    have hlast : made.entryAt? (s.location docs ++ (down ++ [name])) =
        s.entryAt? (s.location docs ++ (down ++ [name])) := by
      refine hsame _ fun above _ ha he => ?_
      have hlength := ha.length_le
      rw [← List.append_cancel_left he, List.length_append, List.length_singleton] at hlength
      omega
    obtain ⟨s', hensure, hcwd', hrooted', hentry, hsame'⟩ := hrooted.ensureDirectory hdocs hups hu
      (hdocs' ▸ hparent) fun bytes => by
        rw [hdocs', hlast]
        exact hfree _ List.prefix_rfl bytes
    rw [hdocs'] at hentry hsame'
    refine ⟨s', ?_, hcwd'.trans hcwd, hrooted', hentry, fun m hm => ?_⟩
    · rw [makeEach_append hmade, makeEach, hensure]
      rfl
    · rw [hsame' m (hm _ (by simp) List.prefix_rfl)]
      exact hsame m fun above hne ha => hm above hne (ha.trans hbelow)

/-- Directories are made on the way down from one that is there, where no file is in the way. -/
theorem makeDirectories (hd : s.entryAt? (s.location docs) = some .directory)
    (hu : Under docs down path)
    (hfree : ∀ above, above <+: down → ∀ bytes,
      s.entryAt? (s.location docs ++ above) ≠ some (.file bytes)) :
    ∃ s', s.makeDirectories path = (s', none) ∧ s'.cwd = s.cwd ∧ s'.Rooted ∧
      s'.entryAt? (s.location docs ++ down) = some .directory ∧
      ∀ m, (∀ above, above ≠ [] → above <+: down → m ≠ s.location docs ++ above) →
        s'.entryAt? m = s.entryAt? m := by
  unfold Store.makeDirectories
  exact h.makeEach_around hdocs hups hd hu hfree hu.length_le

end

end Rooted

end HeaderDocs.Store
