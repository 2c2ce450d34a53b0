import Mathlib.Data.List.Perm.Basic

/-!
# Lists with marked entries

Some entries of a list are marked. `marked` are these alone, and `place` says where in the whole
list the entry is that has a given position among them. Changes at that place are changes of the
marked entries, and leave the others alone.

* `getElem?_place`: the entry at a place.
* `place_eraseIdx`, `place_insertIdx`: how places move with the entries.
* `markedBefore_findIdx`: a search in the whole list stops where one among the marked entries does.
-/
namespace HeaderDocs.Marked

variable {α : Type} {z : List (Bool × α)}

def entries (z : List (Bool × α)) : List α := z.map (·.2)

def marked (z : List (Bool × α)) : List α := (z.filter (·.1)).map (·.2)

def unmarked (z : List (Bool × α)) : List α := (z.filter (!·.1)).map (·.2)

/-- Where the marked entry at a position is in the whole list. -/
def place : List (Bool × α) → Nat → Nat
  | [], k => k
  | (false, _) :: z, k => place z k + 1
  | (true, _) :: _, 0 => 0
  | (true, _) :: z, k + 1 => place z k + 1

/-- How many marked entries stand before a position of the whole list. -/
def markedBefore (z : List (Bool × α)) (i : Nat) : Nat := (marked (z.take i)).length

@[simp] theorem marked_nil : marked ([] : List (Bool × α)) = [] := rfl

@[simp] theorem marked_cons_true (x : α) (z : List (Bool × α)) :
    marked ((true, x) :: z) = x :: marked z := rfl

@[simp] theorem marked_cons_false (x : α) (z : List (Bool × α)) :
    marked ((false, x) :: z) = marked z := rfl

@[simp] theorem unmarked_cons_true (x : α) (z : List (Bool × α)) :
    unmarked ((true, x) :: z) = unmarked z := rfl

@[simp] theorem unmarked_cons_false (x : α) (z : List (Bool × α)) :
    unmarked ((false, x) :: z) = x :: unmarked z := rfl

@[simp] theorem entries_cons (p : Bool × α) (z : List (Bool × α)) :
    entries (p :: z) = p.2 :: entries z := rfl

@[simp] theorem length_entries (z : List (Bool × α)) : (entries z).length = z.length :=
  List.length_map _

theorem mem_entries_of_marked {x : α} (h : x ∈ marked z) : x ∈ entries z :=
  (List.filter_sublist.map _).subset h

theorem mem_entries_of_unmarked {x : α} (h : x ∈ unmarked z) : x ∈ entries z :=
  (List.filter_sublist.map _).subset h

theorem entries_perm (z : List (Bool × α)) : (entries z).Perm (marked z ++ unmarked z) := by
  induction z with
  | nil => exact .refl _
  | cons p z ih =>
    rcases p with ⟨_ | _, x⟩
    · simp only [entries_cons, marked_cons_false, unmarked_cons_false]
      exact (ih.cons x).trans List.perm_middle.symm
    · simp only [entries_cons, marked_cons_true, unmarked_cons_true, List.cons_append]
      exact ih.cons x

/-! ## Places -/

theorem place_lt {i j : Nat} (h : i < j) : place z i < place z j := by
  induction z generalizing i j with
  | nil => exact h
  | cons p z ih =>
    rcases p with ⟨_ | _, x⟩
    · simp only [place]
      have := ih h
      omega
    · cases j with
      | zero => omega
      | succ j =>
        cases i with
        | zero => simp [place]
        | succ i =>
          simp only [place]
          have := ih (Nat.lt_of_succ_lt_succ h)
          omega

theorem place_inj {i j : Nat} : place z i = place z j ↔ i = j := by
  constructor
  · intro h
    rcases Nat.lt_trichotomy i j with hlt | he | hlt
    · have := place_lt (z := z) hlt
      omega
    · exact he
    · have := place_lt (z := z) hlt
      omega
  · rintro rfl
    rfl

theorem place_lt_iff {i j : Nat} : place z i < place z j ↔ i < j := by
  constructor
  · intro h
    rcases Nat.lt_trichotomy i j with hlt | rfl | hlt
    · exact hlt
    · omega
    · have := place_lt (z := z) hlt
      omega
  · exact place_lt

theorem getElem?_place (z : List (Bool × α)) (k : Nat) :
    z[place z k]? = (marked z)[k]?.map (true, ·) := by
  induction z generalizing k with
  | nil => simp [place]
  | cons p z ih =>
    rcases p with ⟨_ | _, x⟩
    · simpa [place] using ih k
    · cases k with
      | zero => simp [place]
      | succ k => simpa [place] using ih k

theorem getElem?_entries_place (z : List (Bool × α)) (k : Nat) :
    (entries z)[place z k]? = (marked z)[k]? := by
  simp only [entries, List.getElem?_map, getElem?_place, Option.map_map]
  cases (marked z)[k]? with
  | none => rfl
  | some x => rfl

/-! ## Changing a marked entry -/

/-- Applies a function to the entry at a position. -/
def modify (z : List (Bool × α)) (i : Nat) (f : α → α) : List (Bool × α) :=
  z.modify i (Prod.map id f)

theorem entries_modify (z : List (Bool × α)) (i : Nat) (f : α → α) :
    entries (modify z i f) = (entries z).modify i f := by
  induction z generalizing i with
  | nil => cases i <;> rfl
  | cons p z ih =>
    cases i with
    | zero => rfl
    | succ i => simpa [modify] using ih i

theorem unmarked_modify_place (z : List (Bool × α)) (k : Nat) (f : α → α) :
    unmarked (modify z (place z k) f) = unmarked z := by
  induction z generalizing k with
  | nil => cases k <;> rfl
  | cons p z ih =>
    rcases p with ⟨_ | _, x⟩
    · simpa [place, modify] using ih k
    · cases k with
      | zero => simp [place, modify]
      | succ k => simpa [place, modify] using ih k

theorem marked_modify_place (z : List (Bool × α)) (k : Nat) (f : α → α) :
    marked (modify z (place z k) f) = (marked z).modify k f := by
  induction z generalizing k with
  | nil => cases k <;> rfl
  | cons p z ih =>
    rcases p with ⟨_ | _, x⟩
    · simpa [place, modify] using ih k
    · cases k with
      | zero => simp [place, modify]
      | succ k => simpa [place, modify] using ih k

theorem place_modify (z : List (Bool × α)) (i : Nat) (f : α → α) (k : Nat) :
    place (modify z i f) k = place z k := by
  induction z generalizing i k with
  | nil => cases i <;> rfl
  | cons p z ih =>
    cases i with
    | zero =>
      rcases p with ⟨_ | _, x⟩
      · rfl
      · cases k <;> rfl
    | succ i =>
      rcases p with ⟨_ | _, x⟩
      · simpa [modify, place] using ih i k
      · cases k with
        | zero => rfl
        | succ k => simpa [modify, place] using ih i k

/-! ## Taking an entry out -/

theorem marked_eraseIdx_place (z : List (Bool × α)) (k : Nat) :
    marked (z.eraseIdx (place z k)) = (marked z).eraseIdx k := by
  induction z generalizing k with
  | nil => cases k <;> rfl
  | cons p z ih =>
    rcases p with ⟨_ | _, x⟩
    · simpa [place] using ih k
    · cases k with
      | zero => rfl
      | succ k => simpa [place] using ih k

theorem unmarked_eraseIdx_place (z : List (Bool × α)) (k : Nat) :
    unmarked (z.eraseIdx (place z k)) = unmarked z := by
  induction z generalizing k with
  | nil => cases k <;> rfl
  | cons p z ih =>
    rcases p with ⟨_ | _, x⟩
    · simpa [place] using ih k
    · cases k with
      | zero => rfl
      | succ k => simpa [place] using ih k

theorem place_eraseIdx (z : List (Bool × α)) (i j : Nat) :
    (i < j → place (z.eraseIdx (place z i)) (j - 1) = place z j - 1) ∧
      (j < i → place (z.eraseIdx (place z i)) j = place z j) := by
  induction z generalizing i j with
  | nil => simp [place]
  | cons p z ih =>
    rcases p with ⟨_ | _, x⟩
    · obtain ⟨hlt, hgt⟩ := ih i j
      simp only [place, List.eraseIdx_cons_succ]
      refine ⟨fun h => ?_, fun h => by rw [hgt h]⟩
      have := place_lt (z := z) h
      rw [hlt h]
      omega
    · cases i with
      | zero =>
        cases j with
        | zero => simp
        | succ j => simp [place]
      | succ i =>
        cases j with
        | zero => simp [place]
        | succ j =>
          obtain ⟨hlt, hgt⟩ := ih i j
          simp only [place, List.eraseIdx_cons_succ]
          refine ⟨fun h => ?_, fun h => by rw [hgt (by omega)]⟩
          have hij : i < j := by omega
          have := place_lt (z := z) hij
          have hlt := hlt hij
          rw [show j + 1 - 1 = (j - 1) + 1 by omega]
          simp only [place]
          omega

/-- Taking out an entry that is not marked leaves the marked ones, and moves their places. -/
theorem eraseIdx_unmarked {i : Nat} {x : α} (h : z[i]? = some (false, x)) :
    marked (z.eraseIdx i) = marked z ∧ ∀ j, place z j ≠ i ∧
      (i < place z j → place (z.eraseIdx i) j = place z j - 1) ∧
      (place z j < i → place (z.eraseIdx i) j = place z j) := by
  induction z generalizing i with
  | nil => simp at h
  | cons p z ih =>
    cases i with
    | zero =>
      cases Option.some.inj h
      exact ⟨rfl, fun j => by simp [place]⟩
    | succ i =>
      obtain ⟨hm, hp⟩ := ih (by simpa using h)
      rcases p with ⟨_ | _, y⟩
      · refine ⟨by simpa using hm, fun j => ?_⟩
        obtain ⟨hne, hlt, hgt⟩ := hp j
        simp only [List.eraseIdx_cons_succ, place]
        refine ⟨by omega, fun h => ?_, fun h => ?_⟩
        · rw [hlt (by omega)]
          omega
        · rw [hgt (by omega)]
      · refine ⟨by simpa using hm, fun j => ?_⟩
        cases j with
        | zero => simp [place]
        | succ j =>
          obtain ⟨hne, hlt, hgt⟩ := hp j
          simp only [List.eraseIdx_cons_succ, place]
          refine ⟨by omega, fun h => ?_, fun h => ?_⟩
          · rw [hlt (by omega)]
            omega
          · rw [hgt (by omega)]

theorem unmarked_eraseIdx_unmarked {i : Nat} {x : α} (h : z[i]? = some (false, x)) :
    ∃ before after, unmarked z = before ++ x :: after ∧
      unmarked (z.eraseIdx i) = before ++ after := by
  induction z generalizing i with
  | nil => simp at h
  | cons p z ih =>
    cases i with
    | zero =>
      cases Option.some.inj h
      exact ⟨[], unmarked z, rfl, rfl⟩
    | succ i =>
      obtain ⟨before, after, hz, he⟩ := ih (by simpa using h)
      rcases p with ⟨_ | _, y⟩
      · exact ⟨y :: before, after, by simp [hz], by simp [he]⟩
      · exact ⟨before, after, by simp [hz], by simp [he]⟩

/-! ## Putting a marked entry in -/

theorem marked_insertIdx {i : Nat} (h : i ≤ z.length) (x : α) :
    marked (z.insertIdx i (true, x)) = (marked z).insertIdx (markedBefore z i) x := by
  induction z generalizing i with
  | nil =>
    cases Nat.le_zero.mp h
    rfl
  | cons p z ih =>
    cases i with
    | zero => rfl
    | succ i =>
      have := ih (Nat.le_of_succ_le_succ h)
      rcases p with ⟨_ | _, y⟩
      · simpa [markedBefore] using this
      · simpa [markedBefore] using this

theorem unmarked_insertIdx {i : Nat} (h : i ≤ z.length) (x : α) :
    unmarked (z.insertIdx i (true, x)) = unmarked z := by
  induction z generalizing i with
  | nil =>
    cases Nat.le_zero.mp h
    rfl
  | cons p z ih =>
    cases i with
    | zero => rfl
    | succ i =>
      have := ih (Nat.le_of_succ_le_succ h)
      rcases p with ⟨_ | _, y⟩
      · simpa using this
      · simpa using this

theorem le_place_iff {i : Nat} (h : i ≤ z.length) (j : Nat) :
    i ≤ place z j ↔ markedBefore z i ≤ j := by
  induction z generalizing i j with
  | nil =>
    cases Nat.le_zero.mp h
    simp [markedBefore]
  | cons p z ih =>
    cases i with
    | zero => simp [markedBefore]
    | succ i =>
      have ih := ih (Nat.le_of_succ_le_succ h)
      rcases p with ⟨_ | _, y⟩
      · have := ih j
        simp only [place, markedBefore, List.take_succ_cons, marked_cons_false] at this ⊢
        omega
      · simp only [markedBefore, List.take_succ_cons, marked_cons_true, List.length_cons] at ih ⊢
        cases j with
        | zero => simp [place]
        | succ j =>
          have := ih j
          simp only [place]
          omega

theorem place_insertIdx {i : Nat} (h : i ≤ z.length) (x : α) (j : Nat) :
    (markedBefore z i ≤ j → place (z.insertIdx i (true, x)) (j + 1) = place z j + 1) ∧
      (j < markedBefore z i → place (z.insertIdx i (true, x)) j = place z j) := by
  induction z generalizing i j with
  | nil =>
    cases Nat.le_zero.mp h
    simp [markedBefore, place]
  | cons p z ih =>
    cases i with
    | zero => simp [markedBefore, place]
    | succ i =>
      have ih := ih (Nat.le_of_succ_le_succ h)
      rcases p with ⟨_ | _, y⟩
      · obtain ⟨hle, hlt⟩ := ih j
        simp only [List.insertIdx_succ_cons, place, markedBefore, List.take_succ_cons,
          marked_cons_false] at hle hlt ⊢
        exact ⟨fun h => by rw [hle h], fun h => by rw [hlt h]⟩
      · simp only [List.insertIdx_succ_cons, markedBefore, List.take_succ_cons, marked_cons_true,
          List.length_cons] at ih ⊢
        cases j with
        | zero => simp [place]
        | succ j =>
          obtain ⟨hle, hlt⟩ := ih j
          simp only [place]
          exact ⟨fun h => by rw [hle (by omega)], fun h => by rw [hlt (by omega)]⟩

theorem place_markedBefore {i : Nat} (h : i ≤ z.length) (x : α) :
    place (z.insertIdx i (true, x)) (markedBefore z i) = i := by
  induction z generalizing i with
  | nil =>
    cases Nat.le_zero.mp h
    rfl
  | cons p z ih =>
    cases i with
    | zero => rfl
    | succ i =>
      have := ih (Nat.le_of_succ_le_succ h)
      rcases p with ⟨_ | _, y⟩
      · simpa [markedBefore, place] using this
      · simpa [markedBefore, place] using this

/-! ## Searching -/

/-- Where all marked entries after the first one found would be found too, the search stops among
the marked ones at the same entry. -/
theorem markedBefore_findIdx {q : α → Bool}
    (h : z.Pairwise fun a b => q a.2 = true → b.1 = true → q b.2 = true) :
    markedBefore z ((entries z).findIdx q) = (marked z).findIdx q := by
  induction z with
  | nil => rfl
  | cons p z ih =>
    obtain ⟨hp, hz⟩ := List.pairwise_cons.mp h
    have ih := ih hz
    by_cases hq : q p.2 = true
    · simp only [entries_cons, List.findIdx_cons, hq, cond_true, markedBefore, List.take_zero,
        marked_nil, List.length_nil]
      rcases p with ⟨_ | _, x⟩
      · cases hm : marked z with
        | nil => simp [hm]
        | cons y ys =>
          have hy : y ∈ marked z := hm ▸ List.mem_cons_self ..
          obtain ⟨b, hb, rfl⟩ := List.mem_map.mp hy
          obtain ⟨hb, hb1⟩ := List.mem_filter.mp hb
          simp [hm, List.findIdx_cons, hp b hb hq hb1]
      · simp [List.findIdx_cons, show q x = true from hq]
    · rcases p with ⟨_ | _, x⟩
      · simpa [entries_cons, List.findIdx_cons, show q x = false by simpa using hq, markedBefore]
          using ih
      · simpa [entries_cons, List.findIdx_cons, show q x = false by simpa using hq, markedBefore]
          using ih

/-- A marked entry that is found first is found among the marked ones. -/
theorem findIdx?_marked {q : α → Bool} {i : Nat} {x : α} (h : (entries z).findIdx? q = some i)
    (hx : z[i]? = some (true, x)) : ∃ k, (marked z).findIdx? q = some k ∧ place z k = i := by
  induction z generalizing i with
  | nil => simp [entries] at h
  | cons p z ih =>
    rw [entries_cons, List.findIdx?_cons] at h
    split at h
    · rename_i hq
      cases h
      cases Option.some.inj hx
      exact ⟨0, by simp [List.findIdx?_cons, hq], rfl⟩
    · rename_i hq
      obtain ⟨i, hi, rfl⟩ := Option.map_eq_some_iff.mp h
      obtain ⟨k, hk, rfl⟩ := ih hi (by simpa using hx)
      rcases p with ⟨_ | _, y⟩
      · exact ⟨k, hk, rfl⟩
      · exact ⟨k + 1, by simp [List.findIdx?_cons, show q y = false by simpa using hq, hk], rfl⟩

end HeaderDocs.Marked
