import HeaderDocs.Proofs.Text.Lines
import HeaderDocs.Site.Link

/-!
# Fenced code, line by line

Names are linked in each line of prose on its own. A line that starts with a fence opens code if there is
a later one, which closes it; what stands behind the closing fence is prose again.

* `toFence?_lines`: where the next fence is.
* `linkNames_eq`: names in a text are linked line by line.
-/
namespace HeaderDocs.Site.Linker

open HeaderDocs.Text

/-- What a line is to the code around it. -/
inductive Part where
  | prose
  /-- Code, or the fence that opens it. -/
  | code
  /-- The fence that closes code, with what stands behind it. -/
  | closing
deriving DecidableEq

def isFence (line : List Char) : Bool := fence.isPrefixOf line

/-- What lines are, in code or in prose. -/
def parts : (inCode : Bool) → List (List Char) → List Part
  | _, [] => []
  | true, line :: rest =>
    if isFence line then .closing :: parts false rest else .code :: parts true rest
  | false, line :: rest =>
    if isFence line && rest.any isFence then .code :: parts true rest
    else .prose :: parts false rest

def linkAs (lk : Linker) (current : Option String) : Part → List Char → List Char
  | .prose, line => lk.linkLine current line
  | .code, line => line
  | .closing, line => fence ++ lk.linkLine current (line.drop 3)

def linkLines (lk : Linker) (current : Option String) (inCode : Bool) (ls : List (List Char)) :
    List (List Char) :=
  List.zipWith (lk.linkAs current) (parts inCode ls) ls

section

variable (lk : Linker) (current : Option String)

theorem linkLines_code {line : List Char} (h : isFence line = false) (ls : List (List Char)) :
    lk.linkLines current true (line :: ls) = line :: lk.linkLines current true ls := by
  rw [linkLines, parts, h, if_neg Bool.false_ne_true]
  rfl

theorem linkLines_closing {line : List Char} (h : isFence line = true) (ls : List (List Char)) :
    lk.linkLines current true (line :: ls) =
      (fence ++ lk.linkLine current (line.drop 3)) :: lk.linkLines current false ls := by
  rw [linkLines, parts, h, if_pos rfl]
  rfl

theorem linkLines_opening {line : List Char} {ls : List (List Char)}
    (h : (isFence line && ls.any isFence) = true) :
    lk.linkLines current false (line :: ls) = line :: lk.linkLines current true ls := by
  rw [linkLines, parts, if_pos h]
  rfl

theorem linkLines_prose {line : List Char} {ls : List (List Char)}
    (h : (isFence line && ls.any isFence) = false) :
    lk.linkLines current false (line :: ls) =
      lk.linkLine current line :: lk.linkLines current false ls := by
  rw [linkLines, parts, h, if_neg Bool.false_ne_true]
  rfl

theorem length_parts (inCode : Bool) (ls : List (List Char)) :
    (parts inCode ls).length = ls.length := by
  induction ls generalizing inCode with
  | nil => cases inCode <;> rfl
  | cons line ls ih =>
    cases inCode <;> rw [parts] <;> split <;> rw [List.length_cons, List.length_cons, ih]

theorem linkLines_ne_nil {inCode : Bool} {ls : List (List Char)} (h : ls ≠ []) :
    lk.linkLines current inCode ls ≠ [] := by
  rw [linkLines, ← List.length_pos_iff, List.length_zipWith, length_parts, Nat.min_self]
  exact List.length_pos_iff.mpr h

end

/-! ## The next fence -/

theorem isFence_iff {line : List Char} : isFence line = true ↔ ∃ rest, line = fence ++ rest := by
  rw [isFence, List.isPrefixOf_iff_prefix]
  exact ⟨fun ⟨rest, h⟩ => ⟨rest, h.symm⟩, fun ⟨rest, h⟩ => ⟨rest, h.symm⟩⟩

/-- A fence does not go on over the end of a line. -/
theorem isPrefixOf_fence (line rest : List Char) :
    fence.isPrefixOf (line ++ '\n' :: rest) = isFence line := by
  rcases line with _ | ⟨a, _ | ⟨b, _ | ⟨c, line⟩⟩⟩ <;>
    simp [isFence, fence, List.isPrefixOf]

theorem toFence?_line {lineStart : Bool} {line : List Char} (hline : '\n' ∉ line)
    (h : lineStart = true → isFence line = false) (rest : List Char) :
    toFence? lineStart (line ++ '\n' :: rest) =
      (toFence? true rest).map (· + (line.length + 1)) := by
  have hfence : (lineStart && fence.isPrefixOf (line ++ '\n' :: rest)) = false := by
    rw [isPrefixOf_fence]
    cases lineStart with
    | false => rfl
    | true => rw [h rfl, Bool.and_false]
  induction line generalizing lineStart with
  | nil =>
    rw [List.nil_append] at hfence ⊢
    rw [toFence?, hfence, if_neg Bool.false_ne_true, beq_self_eq_true]
    simp
  | cons c line ih =>
    rw [List.mem_cons, not_or] at hline
    rw [List.cons_append] at hfence ⊢
    rw [toFence?, hfence, if_neg Bool.false_ne_true, beq_false_of_ne (Ne.symm hline.1),
      @ih false hline.2 nofun rfl, Option.map_map]
    congr 1

theorem toFence?_end {lineStart : Bool} {line : List Char} (hline : '\n' ∉ line)
    (h : lineStart = true → isFence line = false) : toFence? lineStart line = none := by
  have hfence : (lineStart && fence.isPrefixOf line) = false := by
    cases lineStart with
    | false => rfl
    | true => exact (Bool.true_and _).trans (h rfl)
  induction line generalizing lineStart with
  | nil => rfl
  | cons c line ih =>
    rw [List.mem_cons, not_or] at hline
    rw [toFence?, hfence, if_neg Bool.false_ne_true, beq_false_of_ne (Ne.symm hline.1),
      @ih false hline.2 nofun rfl]
    rfl

theorem toFence?_none {ls : List (List Char)} (hlines : ∀ line ∈ ls, '\n' ∉ line)
    (h : ls.any isFence = false) : toFence? true (['\n'].intercalate ls) = none := by
  induction ls with
  | nil => rfl
  | cons line ls ih =>
    rw [List.any_cons, Bool.or_eq_false_iff] at h
    have hline := hlines line (List.mem_cons_self ..)
    by_cases hls : ls = []
    · rw [hls, List.intercalate_singleton, toFence?_end hline fun _ => h.1]
    · rw [List.intercalate_cons_of_ne_nil hls, List.append_assoc, List.singleton_append,
        toFence?_line hline fun _ => h.1, ih (fun l hl => hlines l (List.mem_cons_of_mem _ hl)) h.2]
      rfl

theorem toFence?_lines {ls : List (List Char)} (hlines : ∀ line ∈ ls, '\n' ∉ line)
    (h : ls.any isFence = false) (rest : List Char) :
    toFence? true (unlines ls ++ (fence ++ rest)) = some ((unlines ls).length + 3) := by
  induction ls with
  | nil => rfl
  | cons line ls ih =>
    rw [List.any_cons, Bool.or_eq_false_iff] at h
    rw [unlines_cons, List.append_assoc, List.cons_append,
      toFence?_line (hlines line (List.mem_cons_self ..)) fun _ => h.1,
      ih (fun l hl => hlines l (List.mem_cons_of_mem _ hl)) h.2, Option.map_some]
    simp
    omega

/-! ## Chunks -/

theorem chunksFrom_code (prose code : List Char) (lineStart : Bool) (cs rest : List Char) :
    chunksFrom prose code lineStart (cs.length + 1) (cs ++ '\x60' :: rest) =
      (prose.reverse, code.reverse ++ (cs ++ ['\x60'])) :: chunksFrom [] [] false 0 rest := by
  induction cs generalizing code lineStart with
  | nil =>
    rw [List.nil_append, List.length_nil, chunksFrom, if_pos (beq_self_eq_true 0), List.reverse_cons]
    rfl
  | cons c cs ih =>
    rw [List.length_cons, List.cons_append, chunksFrom, if_neg (by simp), ih]
    simp

/-- Where no code is opened, it does not matter whether a line starts. -/
theorem chunksFrom_start {prose cs : List Char}
    (h : fence.isPrefixOf cs = true → toFence? false (cs.drop 3) = none) :
    chunksFrom prose [] true 0 cs = chunksFrom prose [] false 0 cs := by
  cases cs with
  | nil => rfl
  | cons c cs =>
    have hnone : (if fence.isPrefixOf (c :: cs) = true then
        (toFence? false (cs.drop 2)).map (· + 3) else none) = none := by
      split
      · rename_i hfence
        rw [show toFence? false (cs.drop 2) = none from h hfence]
        rfl
      · rfl
    rw [chunksFrom, chunksFrom]
    simp only [Bool.true_and, Bool.false_and, hnone, Bool.false_eq_true, if_false]

theorem chunksFrom_rest (prose : List Char) {line : List Char} (hline : '\n' ∉ line)
    (rest : List Char) :
    chunksFrom prose [] false 0 (line ++ rest) =
      chunksFrom (line.reverse ++ prose) [] false 0 rest := by
  induction line generalizing prose with
  | nil => rfl
  | cons c line ih =>
    rw [List.mem_cons, not_or] at hline
    rw [List.cons_append, chunksFrom]
    simp only [Bool.false_and, Bool.false_eq_true, if_false]
    rw [beq_false_of_ne (Ne.symm hline.1), ih _ hline.2, List.reverse_cons, List.append_assoc]
    rfl

theorem chunksFrom_newline (prose rest : List Char) :
    chunksFrom prose [] false 0 ('\n' :: rest) = chunksFrom ('\n' :: prose) [] true 0 rest := by
  rw [chunksFrom]
  simp only [Bool.false_and, Bool.false_eq_true, if_false, beq_self_eq_true]

theorem chunksFrom_fence (prose : List Char) {inner : List Char} (rest : List Char)
    (h : toFence? false (inner ++ (fence ++ rest)) = some (inner.length + 3)) :
    chunksFrom prose [] true 0 (fence ++ (inner ++ (fence ++ rest))) =
      (prose.reverse, fence ++ inner ++ fence) :: chunksFrom [] [] false 0 rest := by
  have hcode := chunksFrom_code prose ['\x60'] false ('\x60' :: '\x60' :: inner ++ ['\x60', '\x60']) rest
  have hlength : inner.length + 3 + 3 - 1 =
      ('\x60' :: '\x60' :: inner ++ ['\x60', '\x60']).length + 1 := by
    simp
  have htext : '\x60' :: '\x60' :: (inner ++ (fence ++ rest)) =
      '\x60' :: '\x60' :: inner ++ ['\x60', '\x60'] ++ '\x60' :: rest := by
    simp [fence]
  have hfence : fence ++ (inner ++ (fence ++ rest)) =
      '\x60' :: '\x60' :: '\x60' :: (inner ++ (fence ++ rest)) := rfl
  rw [hfence, chunksFrom]
  simp only [Bool.true_and, show fence.isPrefixOf ('\x60' :: '\x60' :: '\x60' ::
    (inner ++ (fence ++ rest))) = true from rfl, if_true, List.drop_succ_cons, List.drop_zero, h,
    Option.map_some]
  rw [hlength, htext, show ('\x60' == '\n') = false from rfl, hcode]
  simp [fence]

/-! ## Line by line -/

variable (lk : Linker) (current : Option String)

def linkChunks (chunks : List (List Char × List Char)) : List Char :=
  chunks.flatMap fun (prose, code) => lk.linkProse current prose ++ code

theorem linkLine_nil : lk.linkLine current [] = [] := rfl

theorem linkProse_lines {ls : List (List Char)} (hlines : ∀ line ∈ ls, '\n' ∉ line)
    {line : List Char} (hline : '\n' ∉ line) :
    lk.linkProse current (unlines ls ++ line) =
      unlines (ls.map (lk.linkLine current)) ++ lk.linkLine current line := by
  have htext : unlines ls ++ line = ['\n'].intercalate (ls ++ [line]) := by
    rw [intercalate_append ls (List.cons_ne_nil _ _), List.intercalate_singleton]
  have hfound : lines (['\n'].intercalate (ls ++ [line])) = ls ++ [line] :=
    lines_intercalate (List.append_ne_nil_of_right_ne_nil _ (List.cons_ne_nil _ _)) fun l hl =>
      (List.mem_append.mp hl).elim (hlines l) fun h => List.mem_singleton.mp h ▸ hline
  rw [htext, linkProse, hfound, List.map_append, List.map_singleton,
    intercalate_append _ (List.cons_ne_nil _ _), List.intercalate_singleton]

/-- Lines up to a fence, the line that starts with it, and the lines behind. -/
theorem exists_fence {ls : List (List Char)} (h : ls.any isFence = true) :
    ∃ inner rest more, ls = inner ++ (fence ++ rest) :: more ∧ inner.any isFence = false := by
  induction ls with
  | nil => cases h
  | cons line ls ih =>
    cases hline : isFence line with
    | true =>
      obtain ⟨rest, rfl⟩ := isFence_iff.mp hline
      exact ⟨[], rest, ls, rfl, rfl⟩
    | false =>
      rw [List.any_cons, hline, Bool.false_or] at h
      obtain ⟨inner, rest, more, rfl, hinner⟩ := ih h
      exact ⟨line :: inner, rest, more, rfl, by rw [List.any_cons, hline, hinner]; rfl⟩

/-- Inside of code, lines stay as they are until a fence closes it. -/
theorem linkLines_inner {inner : List (List Char)} (h : inner.any isFence = false) (rest : List Char)
    (more : List (List Char)) :
    lk.linkLines current true (inner ++ (fence ++ rest) :: more) =
      inner ++ (fence ++ lk.linkLine current rest) :: lk.linkLines current false more := by
  induction inner with
  | nil => exact linkLines_closing lk current (isFence_iff.mpr ⟨rest, rfl⟩) more
  | cons line inner ih =>
    rw [List.any_cons, Bool.or_eq_false_iff] at h
    rw [List.cons_append, linkLines_code lk current h.1, ih h.2, List.cons_append]

/-- The end of a text within a line of prose. -/
theorem linkChunks_end {done : List (List Char)} (hdone : ∀ line ∈ done, '\n' ∉ line)
    {line : List Char} (hline : '\n' ∉ line) :
    lk.linkChunks current (chunksFrom (unlines done).reverse [] false 0 line) =
      unlines (done.map (lk.linkLine current)) ++ lk.linkLine current line := by
  have hrest := chunksFrom_rest (unlines done).reverse hline []
  rw [List.append_nil] at hrest
  rw [hrest, chunksFrom, linkChunks, List.flatMap_singleton, List.reverse_append,
    List.reverse_reverse, List.reverse_reverse]
  dsimp only
  rw [List.reverse_nil, List.append_nil, linkProse_lines lk current hdone hline]

theorem chunksFrom_line (done : List (List Char)) {line : List Char} (hline : '\n' ∉ line)
    (rest : List Char) :
    chunksFrom (unlines done).reverse [] false 0 (line ++ '\n' :: rest) =
      chunksFrom (unlines (done ++ [line])).reverse [] true 0 rest := by
  rw [chunksFrom_rest _ hline, chunksFrom_newline]
  simp

/-- A line that opens no code is prose from its start. -/
theorem chunksFrom_prose {line : List Char} (hline : '\n' ∉ line) {ls : List (List Char)}
    (hlines : ∀ l ∈ ls, '\n' ∉ l) (h : (isFence line && ls.any isFence) = false)
    (prose : List Char) :
    chunksFrom prose [] true 0 (['\n'].intercalate (line :: ls)) =
      chunksFrom prose [] false 0 (['\n'].intercalate (line :: ls)) := by
  have hdrop : '\n' ∉ line.drop 3 := fun hm => hline (List.mem_of_mem_drop hm)
  refine chunksFrom_start fun hfence => ?_
  by_cases hls : ls = []
  · rw [hls, List.intercalate_singleton]
    exact toFence?_end hdrop nofun
  · rw [List.intercalate_cons_of_ne_nil hls, List.append_assoc, List.singleton_append] at hfence ⊢
    rw [isPrefixOf_fence] at hfence
    rw [hfence, Bool.true_and] at h
    obtain ⟨rest, rfl⟩ := isFence_iff.mp hfence
    rw [List.append_assoc, show (fence ++ (rest ++ '\n' :: ['\n'].intercalate ls)).drop 3 =
      rest ++ '\n' :: ['\n'].intercalate ls from rfl, @toFence?_line false rest hdrop nofun,
      toFence?_none hlines h]
    rfl

theorem chunksFrom_code_lines (prose : List Char) {start : List Char} (hstart : '\n' ∉ start)
    {inner : List (List Char)} (hinner : ∀ l ∈ inner, '\n' ∉ l) (hopen : inner.any isFence = false)
    (rest : List Char) :
    chunksFrom prose [] true 0 (unlines ((fence ++ start) :: inner) ++ (fence ++ rest)) =
      (prose.reverse, unlines ((fence ++ start) :: inner) ++ fence) ::
        chunksFrom [] [] false 0 rest := by
  have hfind : toFence? false (start ++ '\n' :: unlines inner ++ (fence ++ rest)) =
      some ((start ++ '\n' :: unlines inner).length + 3) := by
    rw [List.append_assoc, List.cons_append, @toFence?_line false start hstart nofun,
      toFence?_lines hinner hopen]
    simp
    omega
  have hcode := chunksFrom_fence prose rest hfind
  simpa using hcode

/-- Names are linked line by line, after the lines of prose that were read before. -/
theorem linkChunks_lines {ls : List (List Char)} (hne : ls ≠ []) (hlines : ∀ line ∈ ls, '\n' ∉ line)
    {done : List (List Char)} (hdone : ∀ line ∈ done, '\n' ∉ line) :
    lk.linkChunks current (chunksFrom (unlines done).reverse [] true 0 (['\n'].intercalate ls)) =
      unlines (done.map (lk.linkLine current)) ++
        ['\n'].intercalate (lk.linkLines current false ls) := by
  induction hn : ls.length using Nat.strongRecOn generalizing ls done with
  | ind n ih =>
    obtain ⟨line, rest, rfl⟩ := List.exists_cons_of_ne_nil hne
    have hline := hlines line (List.mem_cons_self ..)
    have hrest : ∀ l ∈ rest, '\n' ∉ l := fun l hl => hlines l (List.mem_cons_of_mem _ hl)
    cases hopens : isFence line && rest.any isFence with
    | false =>
      rw [chunksFrom_prose hline hrest hopens, linkLines_prose lk current hopens]
      by_cases hls : rest = []
      · rw [hls, List.intercalate_singleton, linkChunks_end lk current hdone hline]
        exact congrArg _ List.intercalate_singleton.symm
      · have hmore : ∀ l ∈ done ++ [line], '\n' ∉ l := fun l hl =>
          (List.mem_append.mp hl).elim (hdone l) fun h => List.mem_singleton.mp h ▸ hline
        rw [List.intercalate_cons_of_ne_nil hls, List.append_assoc, List.singleton_append,
          chunksFrom_line done hline,
          ih rest.length (by rw [← hn]; exact Nat.lt_succ_self _) hls hrest hmore rfl,
          List.intercalate_cons_of_ne_nil (linkLines_ne_nil lk current hls)]
        simp
    | true =>
      obtain ⟨hfence, hany⟩ := Bool.and_eq_true_iff.mp hopens
      obtain ⟨start, rfl⟩ := isFence_iff.mp hfence
      obtain ⟨inner, last, more, rfl, hinner⟩ := exists_fence hany
      have hstart : '\n' ∉ start := fun hm => hline (List.mem_append_right _ hm)
      have hlast : '\n' ∉ last := fun hm => hrest (fence ++ last) (by simp) (List.mem_append_right _ hm)
      have hinside : ∀ l ∈ inner, '\n' ∉ l := fun l hl => hrest l (List.mem_append_left _ hl)
      have hprose := linkProse_lines lk current hdone (List.not_mem_nil : '\n' ∉ [])
      rw [List.append_nil, linkLine_nil, List.append_nil] at hprose
      rw [linkLines_opening lk current hopens, linkLines_inner lk current hinner, ← List.cons_append,
        ← List.cons_append, intercalate_append _ (List.cons_ne_nil _ _),
        intercalate_append _ (List.cons_ne_nil _ _)]
      have hbehind : lk.linkChunks current
          (chunksFrom [] [] false 0 (['\n'].intercalate (last :: more))) =
          ['\n'].intercalate (lk.linkLine current last :: lk.linkLines current false more) := by
        by_cases hmore : more = []
        · have hend := @linkChunks_end lk current [] nofun last hlast
          rw [hmore, List.intercalate_singleton]
          exact hend.trans List.intercalate_singleton.symm
        · have hlater : ∀ l ∈ more, '\n' ∉ l := fun l hl =>
            hrest l (List.mem_append_right _ (List.mem_cons_of_mem _ hl))
          have honly : ∀ l ∈ [last], '\n' ∉ l := fun l hl => List.mem_singleton.mp hl ▸ hlast
          have hlines := ih more.length (by rw [← hn]; simp; omega) hmore hlater honly rfl
          rw [List.intercalate_cons_of_ne_nil hmore, List.append_assoc, List.singleton_append,
            List.intercalate_cons_of_ne_nil (linkLines_ne_nil lk current hmore)]
          refine (congrArg _ (chunksFrom_line [] hlast _)).trans (hlines.trans ?_)
          simp
      rw [intercalate_cons_append, intercalate_cons_append,
        chunksFrom_code_lines _ hstart hinside hinner, linkChunks, List.flatMap_cons,
        List.reverse_reverse]
      dsimp only
      rw [hprose, ← linkChunks, hbehind]
      simp

/-- Names in a text are linked line by line. -/
theorem linkNames_eq (cs : List Char) :
    lk.linkNames current cs = ['\n'].intercalate (lk.linkLines current false (lines cs)) := by
  have hlines := @linkChunks_lines lk current _ (lines_ne_nil cs) (fun _ hl => newline_not_mem hl)
    [] nofun
  rw [intercalate_lines] at hlines
  exact hlines

end HeaderDocs.Site.Linker
