/-!
# Reading a text piece by piece

A reader takes a piece off the front of a text, or says that what it reads has ended. `readMany`
applies it until then, but not more often than the text has characters and its end: a reader that
takes nothing off would not come to an end otherwise.

* `readWithin_mono`: a longer bound does not change what was read;
* `readMany_finish`, `readMany_items`: what one application of the reader contributes.
-/
namespace HeaderDocs.Text

/-- What a reader finds at the front of a text: further items and the text after them, or the end of
what is read. -/
inductive Step (α β : Type) where
  | items (items : List α) (rest : List Char)
  | finish (last : β) (rest : List Char)

/-- The items found by a reader, what it ended with, and the text after that. The reader is applied
once more than `bound` is long. -/
def readWithin {α β : Type} (read : List Char → Option (Step α β)) :
    (bound cs : List Char) → Option (List α × β × List Char)
  | bound, cs =>
    match read cs with
    | none => none
    | some (.finish last rest) => some ([], last, rest)
    | some (.items items rest) =>
      match bound with
      | [] => none
      | _ :: bound =>
        (readWithin read bound rest).map fun (more, last, rest) => (items ++ more, last, rest)

/-- The items found by a reader, what it ended with, and the text after that. -/
def readMany {α β : Type} (read : List Char → Option (Step α β)) (cs : List Char) :
    Option (List α × β × List Char) :=
  readWithin read cs cs

variable {α β : Type} {read : List Char → Option (Step α β)} {cs rest : List Char}

theorem readWithin_mono {bound : List Char} {result : List α × β × List Char}
    (h : readWithin read bound cs = some result) {longer : List Char}
    (hle : bound.length ≤ longer.length) : readWithin read longer cs = some result := by
  induction bound generalizing cs result longer with
  | nil =>
    rw [readWithin] at h ⊢
    split at h
    · cases h
    · exact h
    · cases h
  | cons c bound ih =>
    obtain ⟨d, longer, rfl⟩ := List.exists_cons_of_length_pos (Nat.lt_of_lt_of_le (by simp) hle)
    rw [readWithin] at h ⊢
    split at h
    · cases h
    · exact h
    · obtain ⟨found, hfound, rfl⟩ := Option.map_eq_some_iff.1 h
      simp only [ih hfound (Nat.le_of_succ_le_succ hle), Option.map_some]

theorem readMany_finish {last : β} (h : read cs = some (.finish last rest)) :
    readMany read cs = some ([], last, rest) := by
  rw [readMany, readWithin, h]

theorem readMany_items {items more : List α} {last : β} {tail : List Char}
    (h : read cs = some (.items items rest)) (hlt : rest.length < cs.length)
    (hrest : readMany read rest = some (more, last, tail)) :
    readMany read cs = some (items ++ more, last, tail) := by
  obtain ⟨c, bound, rfl⟩ := List.exists_cons_of_length_pos (Nat.zero_lt_of_lt hlt)
  rw [readMany, readWithin, h]
  simp [readWithin_mono hrest (Nat.le_of_lt_succ hlt)]

end HeaderDocs.Text
