import HeaderDocs.Files.Store

/-!
# What stays in a store

A store `Extends` another one if it has all directories and files of that one; the files may hold
something else. Path names that lead anywhere then lead there still.

* `write_eq_ok`: a file is written at the location that its path name leads to.
* `makeDirectories_eq_none`: directories are made once.
-/
namespace HeaderDocs.Store

/-- Directories are still directories, and files are still files. -/
structure Extends (s s' : Store) : Prop where
  cwd : s'.cwd = s.cwd
  directory : ∀ l, s.entryAt? l = some .directory → s'.entryAt? l = some .directory
  file : ∀ l bytes, s.entryAt? l = some (.file bytes) → ∃ more, s'.entryAt? l = some (.file more)

variable {s s' s'' : Store} {path : String} {l m : Location} {bytes : List UInt8}

namespace Extends

theorem refl (s : Store) : s.Extends s := ⟨rfl, fun _ h => h, fun _ bytes h => ⟨bytes, h⟩⟩

theorem trans (h : s.Extends s') (h' : s'.Extends s'') : s.Extends s'' := by
  refine ⟨h'.cwd.trans h.cwd, fun l hl => h'.directory l (h.directory l hl), fun l bytes hl => ?_⟩
  obtain ⟨more, hmore⟩ := h.file l bytes hl
  exact h'.file l more hmore

end Extends

/-! ## Changes at a location -/

theorem find?_entries_of_ne (s : Store) (h : m ≠ l) :
    (s.entries.filter (·.1 != l)).find? (·.1 == m) = s.entries.find? (·.1 == m) := by
  rw [List.find?_filter]
  congr 1
  funext x
  by_cases hx : x.1 = m
  · simp [hx, h]
  · simp [hx]

theorem entryAt?_put_of_ne (s : Store) (h : m ≠ l) (e : Entry) :
    (s.put l e).entryAt? m = s.entryAt? m := by
  have hlast : ([(l, e)] : List (Location × Entry)).find? (·.1 == m) = none := by
    simp [Ne.symm h]
  simp only [entryAt?, put, List.find?_append, find?_entries_of_ne s h, hlast, Option.or_none]

theorem entryAt?_delete_of_ne (s : Store) (h : m ≠ l) : (s.delete l).entryAt? m = s.entryAt? m := by
  simp only [entryAt?, delete, find?_entries_of_ne s h]

theorem ne_nil_of_entryAt? (h : s.entryAt? l ≠ some .directory) : l ≠ [] := by
  rintro rfl
  exact h rfl

theorem extends_put {e : Entry} (h : s.entryAt? l ≠ some .directory)
    (he : ∀ old, s.entryAt? l = some (.file old) → ∃ bytes, e = .file bytes) :
    s.Extends (s.put l e) := by
  have hl : l ≠ [] := ne_nil_of_entryAt? h
  refine ⟨rfl, fun m hm => ?_, fun m old hm => ?_⟩
  · have hne : m ≠ l := by
      rintro rfl
      exact h hm
    rw [entryAt?_put_of_ne s hne]
    exact hm
  · by_cases hne : m = l
    · subst hne
      obtain ⟨bytes, rfl⟩ := he old hm
      exact ⟨bytes, entryAt?_put s hl _⟩
    · exact ⟨old, (entryAt?_put_of_ne s hne _).trans hm⟩

theorem extends_put_file (h : s.entryAt? l ≠ some .directory) (bytes : List UInt8) :
    s.Extends (s.put l (.file bytes)) :=
  extends_put h fun _ _ => ⟨bytes, rfl⟩

/-! ## Path names -/

/-- A path name leads where it led before. -/
theorem Extends.follow (h : s.Extends s') {parts : List String} (hf : s.follow l parts = .ok m) :
    s'.follow l parts = .ok m := by
  induction parts generalizing l with
  | nil => exact hf
  | cons part parts ih =>
    unfold Store.follow at hf ⊢
    split at hf
    · rename_i hd
      rw [h.directory l hd]
      exact ih hf
    · cases hf
    · cases hf

theorem Extends.origin (h : s.Extends s') (path : String) : s'.origin path = s.origin path := by
  unfold Store.origin
  rw [h.cwd]

theorem locate_eq_ok {e : Option Entry} : s.locate path = .ok (l, e) ↔
    path.isEmpty = false ∧ s.follow (s.origin path) (PathName.components path) = .ok l ∧
      s.entryAt? l = e ∧ ∀ bytes, e = some (.file bytes) → needsDirectory path = false := by
  unfold locate
  cases hempty : path.isEmpty with
  | true => simp
  | false =>
    simp only [Bool.false_eq_true, if_false, true_and]
    cases hfollow : s.follow (s.origin path) (PathName.components path) with
    | error cause => simp
    | ok k =>
      dsimp only
      split
      · rename_i bytes hk
        split
        · rename_i hneeds
          constructor
          · intro h
            cases h
          · rintro ⟨hkl, hentry, hno⟩
            cases hkl
            exact absurd (hno bytes (hentry ▸ hk)) (by simp [hneeds])
        · rename_i hneeds
          constructor
          · intro h
            cases h
            exact ⟨rfl, hk, fun _ _ => by simpa using hneeds⟩
          · rintro ⟨hkl, hentry, -⟩
            cases hkl
            rw [← hentry, hk]
      · rename_i e' hno
        constructor
        · intro h
          cases h
          exact ⟨rfl, rfl, fun bytes hfile => absurd hfile (hno bytes)⟩
        · rintro ⟨hkl, hentry, -⟩
          cases hkl
          rw [hentry]

theorem isDirectory_iff : s.isDirectory path = true ↔ ∃ l, s.locate path = .ok (l, some .directory) := by
  unfold isDirectory find?
  rw [beq_iff_eq]
  split
  · rename_i l e h
    simp [h]
  · rename_i cause h
    simp [h]

theorem exists?_iff : s.exists? path = true ↔ ∃ l e, s.locate path = .ok (l, some e) := by
  unfold exists? find?
  rw [Option.isSome_iff_exists]
  split
  · rename_i l e h
    simp [h]
  · rename_i cause h
    simp [h]

theorem exists?_of_read (h : s.read path = .ok bytes) : s.exists? path = true := by
  unfold read at h
  split at h
  · cases h
  · rename_i l _ hl
    exact exists?_iff.mpr ⟨l, _, hl⟩
  · cases h
  · cases h

theorem Extends.isDirectory (h : s.Extends s') (hd : s.isDirectory path = true) :
    s'.isDirectory path = true := by
  obtain ⟨l, hl⟩ := isDirectory_iff.mp hd
  obtain ⟨hempty, hfollow, hentry, -⟩ := locate_eq_ok.mp hl
  exact isDirectory_iff.mpr ⟨l, locate_eq_ok.mpr
    ⟨hempty, (h.origin path).symm ▸ h.follow hfollow, h.directory l hentry, nofun⟩⟩

theorem Extends.exists? (h : s.Extends s') (he : s.exists? path = true) :
    s'.exists? path = true := by
  obtain ⟨l, e, hl⟩ := exists?_iff.mp he
  cases e with
  | directory =>
    obtain ⟨l, hl⟩ := isDirectory_iff.mp (h.isDirectory (isDirectory_iff.mpr ⟨l, hl⟩))
    exact exists?_iff.mpr ⟨l, _, hl⟩
  | file bytes =>
    obtain ⟨hempty, hfollow, hentry, hneeds⟩ := locate_eq_ok.mp hl
    obtain ⟨more, hmore⟩ := h.file l bytes hentry
    exact exists?_iff.mpr ⟨l, _, locate_eq_ok.mpr
      ⟨hempty, (h.origin path).symm ▸ h.follow hfollow, hmore, fun _ _ => hneeds bytes rfl⟩⟩

/-! ## Directories -/

theorem makeDirectory_eq_ok (h : s.makeDirectory path = .ok s') :
    s.Extends s' ∧ s'.isDirectory path = true := by
  unfold makeDirectory at h
  split at h
  · cases h
  · cases h
  · rename_i l hl
    cases h
    obtain ⟨hempty, hfollow, hentry, -⟩ := locate_eq_ok.mp hl
    have hfree : s.entryAt? l ≠ some .directory := by
      rw [hentry]
      nofun
    have hextends : s.Extends (s.put l .directory) := by
      refine extends_put hfree fun old hold => ?_
      rw [hentry] at hold
      cases hold
    refine ⟨hextends, isDirectory_iff.mpr ⟨l, locate_eq_ok.mpr ⟨hempty, ?_, ?_, nofun⟩⟩⟩
    · exact (hextends.origin path).symm ▸ hextends.follow hfollow
    · exact entryAt?_put s (ne_nil_of_entryAt? hfree) _

theorem follow_ne_alreadyExists {parts : List String} :
    s.follow l parts ≠ .error .alreadyExists := by
  induction parts generalizing l with
  | nil => nofun
  | cons part parts ih =>
    unfold follow
    split
    · exact ih
    · nofun
    · nofun

/-- Looking at a path name does not fail because there is something. -/
theorem locate_ne_alreadyExists : s.locate path ≠ .error .alreadyExists := by
  unfold locate
  split
  · nofun
  split
  · rename_i cause hcause
    rintro ⟨⟩
    exact follow_ne_alreadyExists hcause
  split
  · split
    · nofun
    · nofun
  · nofun

theorem makeDirectory_alreadyExists {e : FileError} (h : s.makeDirectory path = .error e)
    (he : e.cause = .alreadyExists) : s.exists? path = true := by
  unfold makeDirectory at h
  split at h
  · rename_i cause hcause
    cases h
    obtain rfl : cause = .alreadyExists := he
    exact absurd hcause locate_ne_alreadyExists
  · rename_i l e' hl
    exact exists?_iff.mpr ⟨l, e', hl⟩
  · cases h

theorem ensureDirectory_eq_ok (h : s.ensureDirectory path = .ok s') :
    s.Extends s' ∧ s'.isDirectory path = true := by
  unfold ensureDirectory at h
  split at h
  · rename_i made hmade
    cases h
    exact makeDirectory_eq_ok hmade
  · split at h
    · rename_i hd
      cases h
      exact ⟨.refl s, hd⟩
    · cases h

theorem ensureDirectory_of_isDirectory (h : s.isDirectory path = true) :
    s.ensureDirectory path = .ok s := by
  obtain ⟨l, hl⟩ := isDirectory_iff.mp h
  unfold ensureDirectory makeDirectory
  rw [hl]
  simp [failed, h]

theorem exists?_of_isDirectory (h : s.isDirectory path = true) : s.exists? path = true := by
  obtain ⟨l, hl⟩ := isDirectory_iff.mp h
  exact exists?_iff.mpr ⟨l, _, hl⟩

/-- Where directories were made one after the other, there is something for each of them, and a
directory for the last. -/
theorem makeEach_eq_none {paths : List String} (h : s.makeEach paths = (s', none)) :
    s.Extends s' ∧ (∀ p ∈ paths, s'.exists? p = true) ∧
      ∀ p, paths.getLast? = some p → s'.isDirectory p = true := by
  induction paths generalizing s with
  | nil =>
    cases h
    exact ⟨.refl _, nofun, nofun⟩
  | cons path paths ih =>
    unfold makeEach at h
    split at h
    · rename_i made hmade
      obtain ⟨hextends, hd⟩ := ensureDirectory_eq_ok hmade
      obtain ⟨hextends', hall, hlast⟩ := ih h
      have hd' := hextends'.isDirectory hd
      refine ⟨hextends.trans hextends', ?_, fun p hp => ?_⟩
      · rintro p (_ | ⟨_, hp⟩)
        · exact exists?_of_isDirectory hd'
        · exact hall p hp
      · cases paths with
        | nil =>
          cases hp
          exact hd'
        | cons q paths => exact hlast p hp
    · rename_i e he
      split at h
      · rename_i hcause
        simp only [Bool.and_eq_true, beq_iff_eq, Bool.not_eq_true', List.isEmpty_eq_false_iff]
          at hcause
        obtain ⟨hextends, hall, hlast⟩ := ih h
        have hexists : s.exists? path = true := by
          unfold ensureDirectory at he
          split at he
          · cases he
          · rename_i e' he'
            split at he
            · cases he
            · cases he
              exact makeDirectory_alreadyExists he' hcause.1
        refine ⟨hextends, ?_, fun p hp => ?_⟩
        · rintro p (_ | ⟨_, hp⟩)
          · exact hextends.exists? hexists
          · exact hall p hp
        · rw [List.getLast?_cons_of_ne_nil hcause.2] at hp
          exact hlast p hp
      · cases h

/-- The directories around a path name that are not there are those before the first that is. -/
theorem takeWhile_eq_nil {paths : List String}
    (h : ∀ p ∈ paths.takeWhile (fun p => !s.exists? p), s'.exists? p = true)
    (hextends : s.Extends s') : paths.takeWhile (fun p => !s'.exists? p) = [] := by
  cases paths with
  | nil => rfl
  | cons p paths =>
    have hp : s'.exists? p = true := by
      cases hs : s.exists? p with
      | true => exact hextends.exists? hs
      | false =>
        rw [List.takeWhile_cons_of_pos (by simp [hs])] at h
        exact h p (List.mem_cons_self ..)
    rw [List.takeWhile_cons_of_neg (by simp [hp])]

theorem makeDirectories_eq_none (h : s.makeDirectories path = (s', none)) :
    s.Extends s' ∧ ∀ s'', s'.Extends s'' → s''.makeDirectories path = (s'', none) := by
  unfold makeDirectories at h
  obtain ⟨hextends, hall, hlast⟩ := makeEach_eq_none h
  refine ⟨hextends, fun s'' hextends' => ?_⟩
  have hmissing : (directoriesAround path.length path).takeWhile (fun p => !s''.exists? p) = [] :=
    takeWhile_eq_nil (fun p hp => hextends'.exists? (hall p (by simp [hp])))
      (hextends.trans hextends')
  have hd := hextends'.isDirectory (hlast path (by simp))
  unfold makeDirectories
  rw [hmissing]
  simp only [List.reverse_nil, List.nil_append, makeEach, ensureDirectory_of_isDirectory hd]

/-! ## Files -/

/-- A path name leads to the location of a file, which may be made there if there is none. -/
structure LeadsToFile (s : Store) (path : String) (l : Location) : Prop where
  nonempty : path.isEmpty = false
  follow : s.follow (s.origin path) (PathName.components path) = .ok l
  plain : needsDirectory path = false
  noDot : endsInDot path = false
  free : s.entryAt? l ≠ some .directory

namespace LeadsToFile

theorem ne_nil (h : s.LeadsToFile path l) : l ≠ [] := ne_nil_of_entryAt? h.free

/-- A path name leads to one location. -/
theorem unique (h : s.LeadsToFile path l) (h' : s.LeadsToFile path m) : l = m := by
  have := h.follow
  rw [h'.follow] at this
  exact (Except.ok.inj this).symm

theorem read (h : s.LeadsToFile path l) (hl : s.entryAt? l = some (.file bytes)) :
    s.read path = .ok bytes := by
  have : s.locate path = .ok (l, some (.file bytes)) :=
    locate_eq_ok.mpr ⟨h.nonempty, h.follow, hl, fun _ _ => h.plain⟩
  unfold Store.read
  rw [this]

theorem write (h : s.LeadsToFile path l) (bytes : List UInt8) :
    s.write path bytes = .ok (s.put l (.file bytes)) := by
  unfold Store.write
  rw [h.nonempty, h.follow, h.plain, h.noDot]
  simp only [Bool.false_eq_true, if_false, Bool.false_and]
  split
  · rename_i hd
    exact absurd hd h.free
  · rfl
  · rfl

/-- Writing a file does not change where path names lead. -/
theorem put (h : s.LeadsToFile path l) (hm : s.entryAt? m ≠ some .directory)
    (bytes : List UInt8) : (s.put m (.file bytes)).LeadsToFile path l := by
  have hextends := extends_put_file hm bytes
  refine ⟨h.nonempty, (hextends.origin path).symm ▸ hextends.follow h.follow, h.plain, h.noDot, ?_⟩
  by_cases hlm : l = m
  · subst hlm
    rw [entryAt?_put s h.ne_nil]
    nofun
  · rw [entryAt?_put_of_ne s hlm]
    exact h.free

end LeadsToFile

/-- A file is written at the location that its path name leads to. -/
theorem write_eq_ok (h : s.write path bytes = .ok s') :
    ∃ l, s.LeadsToFile path l ∧ s' = s.put l (.file bytes) := by
  unfold write at h
  split at h
  · cases h
  rename_i hempty
  split at h
  · cases h
  rename_i l hfollow
  split at h
  · cases h
  rename_i hneeds
  split at h
  · cases h
  · rename_i old hold
    split at h
    · cases h
    · rename_i hdot
      cases h
      refine ⟨l, ⟨by simpa using hempty, hfollow, ?_, by simpa using hdot, ?_⟩, rfl⟩
      · simpa [hdot] using hneeds
      · rw [hold]
        nofun
  · rename_i hnone
    split at h
    · cases h
    · rename_i hdot
      cases h
      refine ⟨l, ⟨by simpa using hempty, hfollow, ?_, by simpa using hdot, ?_⟩, rfl⟩
      · simpa [hdot] using hneeds
      · rw [hnone]
        nofun

end HeaderDocs.Store
