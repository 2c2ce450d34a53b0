import HeaderDocs.Proofs.Scan.Frames
import Mathlib.Algebra.GroupWithZero.Nat
import Mathlib.Data.List.Induction
import Mathlib.Data.List.Infix

/-!
# How deep in braces a source is

`braceDepth` is what a look at the text alone says: the braces that are open outside of comments,
literals and directives. `depth_run`: as many contexts and counted braces are open in the scanner, and
a body ends at the brace that closes it, where the contexts are again those from before it.

* `Above`: contexts, braces and scopes that were opened on top of others.
* `State.Holds`: what was open in a state still is. A closing brace keeps it so unless it closes what
  the state itself had opened (`State.Holds.closes`).
-/
namespace HeaderDocs.Scan

/-! ## The braces of a text -/

/-- What the next character of a text belongs to, and how many braces of the code are open. A closing
brace too many does not count. -/
structure BraceCount where
  layer : Layer := .code
  depth : Nat := 0
deriving DecidableEq, Repr

def BraceCount.read (b : BraceCount) (c : Char) : BraceCount :=
  { layer := b.layer.next c
    depth :=
      if b.layer.isCode c then
        if c == '\x7b' then b.depth + 1 else if c == '\x7d' then b.depth - 1 else b.depth
      else b.depth }

def braceCount (text : List Char) : BraceCount := text.foldl .read {}

/-- How many braces are open after a text, outside of comments, literals and directives. -/
def braceDepth (text : List Char) : Nat := (braceCount text).depth

/-- Whether a character after a text is part of the code. -/
def isCodeAfter (text : List Char) (c : Char) : Bool := (braceCount text).layer.isCode c

example : braceDepth "struct a \x7b int b[] = \x7b '\x7d', /* \x7d */ 1".toList = 2 := by
  decide +kernel

/-- The text between two braces of the code that match: inside of it the depth never falls back to
what it was before. -/
structure IsBlock (before body : List Char) : Prop where
  opens : isCodeAfter before '\x7b' = true
  inside : ∀ part, part <+: body → braceDepth before < braceDepth (before ++ '\x7b' :: part)
  closes : braceDepth (before ++ '\x7b' :: body ++ ['\x7d']) = braceDepth before

instance (before body : List Char) : Decidable (IsBlock before body) :=
  decidable_of_iff
    (isCodeAfter before '\x7b' = true ∧
      (∀ part ∈ body.inits, braceDepth before < braceDepth (before ++ '\x7b' :: part)) ∧
      braceDepth (before ++ '\x7b' :: body ++ ['\x7d']) = braceDepth before)
    ⟨fun h => ⟨h.1, fun part hpart => h.2.1 part ((List.mem_inits _ _).mpr hpart), h.2.2⟩,
      fun h => ⟨h.opens, fun part hpart => h.inside part ((List.mem_inits _ _).mp hpart), h.closes⟩⟩

theorem braceCount_concat (text : List Char) (c : Char) :
    braceCount (text ++ [c]) = (braceCount text).read c := by
  simp [braceCount]

namespace State

variable {s t : State}

/-! ### What is opened on top of a state -/

/-- A scope that has its contexts, and perhaps more contexts or braces on top of them. -/
def Covers (base : OpenScope) (u : OpenScope) : Prop :=
  u.origin = base.origin ∧ ∃ top n m rest,
    base.counters = n :: rest ∧ u.counters = top ++ m :: rest ∧ n ≤ m

/-- The open scopes are those of `base` and `below`, perhaps with contexts, braces or scopes on top of
them. What is below is untouched. -/
inductive Above (base : OpenScope) (below : List OpenScope) : OpenScope → List OpenScope → Prop
  | here {u : OpenScope} : Covers base u → Above base below u below
  | inside {inner outer : OpenScope} {enclosing : List OpenScope} :
      Above base below outer enclosing → Above base below inner (outer :: enclosing)

/-- The frames of a state are still open in another one. -/
def Holds (s t : State) : Prop := Above s.scope s.enclosing t.scope t.enclosing

variable {base u v : OpenScope} {below us : List OpenScope}

theorem Covers.congr (h : Covers base u) (he : v.braceFrame = u.braceFrame) : Covers base v := by
  obtain ⟨horigin, top, n, m, rest, hbase, hu, hle⟩ := h
  exact ⟨(congrArg Prod.fst he).trans horigin, top, n, m, rest, hbase,
    (congrArg Prod.snd he).trans hu, hle⟩

theorem covers_refl (base : OpenScope) : Covers base base :=
  ⟨rfl, [], base.context.braces, base.context.braces, base.suspended.map (·.braces), rfl, rfl,
    Nat.le_refl _⟩

theorem Above.congr (h : Above base below u us) (he : v.braceFrame = u.braceFrame) :
    Above base below v us := by
  cases h with
  | here hc => exact .here (hc.congr he)
  | inside hin => exact .inside hin

theorem Holds.refl (s : State) : s.Holds s := .here (covers_refl _)

theorem Holds.congr (h : s.Holds t) {t' : State} (he : SameFrames t t') : s.Holds t' := by
  unfold Holds at h ⊢
  rw [he.enclosing]
  exact Above.congr h he.scope

def weight (s : OpenScope) (enclosing : List OpenScope) : Nat :=
  ((s :: enclosing).flatMap (·.counters)).length + ((s :: enclosing).flatMap (·.counters)).sum

theorem weight_eq_depth (s : State) : weight s.scope s.enclosing = s.depth + 1 := by
  obtain ⟨n, rest, hs⟩ := s.exists_frames
  have he : weight s.scope s.enclosing = s.frames.length + s.frames.sum := rfl
  simp only [he, State.depth, hs, List.length_cons, List.sum_cons]
  omega

theorem weight_cons (inner outer : OpenScope) (enclosing : List OpenScope) :
    weight outer enclosing < weight inner (outer :: enclosing) := by
  simp only [weight, List.flatMap_cons, List.length_append, List.sum_append, OpenScope.counters,
    List.map_cons, List.length_cons, List.sum_cons]
  omega

/-- More is open than before, unless nothing is. -/
theorem Above.weight_le (h : Above base below u us) :
    weight base below ≤ weight u us ∧
      (weight u us = weight base below → u.braceFrame = base.braceFrame ∧ us = below) := by
  induction h with
  | here hc =>
    rename_i u
    obtain ⟨horigin, top, n, m, rest, hbase, hu, hle⟩ := hc
    simp only [weight, List.flatMap_cons, hbase, hu, List.length_append, List.sum_append,
      List.length_cons, List.sum_cons]
    refine ⟨by omega, fun he => ⟨?_, trivial⟩⟩
    have htop : top = [] := List.eq_nil_of_length_eq_zero (by omega)
    subst htop
    have hm : m = n := by
      simp only [List.length_nil, List.sum_nil] at he
      omega
    rw [OpenScope.braceFrame, OpenScope.braceFrame, horigin, hu, hbase, hm]
    rfl
  | inside _ ih =>
    rename_i inner outer enclosing _
    have hlt := weight_cons inner outer enclosing
    exact ⟨by omega, fun he => by omega⟩

theorem Above.here_or_inside (h : Above base below u us) :
    (us = below ∧ Covers base u) ∨
      ∃ outer enclosing, us = outer :: enclosing ∧ Above base below outer enclosing := by
  cases h with
  | here hc => exact .inl ⟨rfl, hc⟩
  | inside hin => exact .inr ⟨_, _, rfl, hin⟩

/-- A scope that is not on top stays as it is whatever happens in the innermost one. -/
theorem Above.exchange (h : Above base below u us) (hv : Covers base u → Covers base v) :
    Above base below v us := by
  cases h with
  | here hc => exact .here (hv hc)
  | inside hin => exact .inside hin

theorem Holds.opens (h : s.Holds t) {t' : State} (ho : Opens t t') : s.Holds t' := by
  unfold Holds at h ⊢
  cases ho with
  | counted origin before after enclosing =>
    rename_i k ks
    rw [enclosing]
    refine h.exchange fun ⟨horigin, top, n, m, rest, hbase, ht, hle⟩ => ⟨origin.trans horigin, ?_⟩
    rw [before] at ht
    cases top with
    | nil =>
      obtain ⟨rfl, rfl⟩ := List.cons.inj ht
      exact ⟨[], n, k + 1, ks, hbase, after, Nat.le_succ_of_le hle⟩
    | cons l top =>
      obtain ⟨rfl, rfl⟩ := List.cons.inj ht
      exact ⟨(k + 1) :: top, n, m, rest, hbase, after, hle⟩
  | linkage origin after enclosing =>
    rw [enclosing]
    exact h.exchange fun ⟨horigin, top, n, m, rest, hbase, ht, hle⟩ =>
      ⟨origin.trans horigin, 0 :: top, n, m, rest, hbase, by rw [after, ht]; rfl, hle⟩
  | scope frame after enclosing =>
    rw [enclosing]
    exact .inside (h.congr frame)

/-- Where more is open than before, a counter of the innermost context or a context on top of it can
be taken away. -/
theorem Covers.lt_or_top {k : Nat} {ks : List Nat} (h : Covers base u) (hu : u.counters = k :: ks)
    (hlt : weight base below < weight u below) :
    (∃ n, base.counters = n :: ks ∧ n < k) ∨
      ∃ top n m rest, base.counters = n :: rest ∧ ks = top ++ m :: rest ∧ n ≤ m := by
  obtain ⟨-, top, n, m, rest, hbase, hcounters, hle⟩ := h
  rw [hu] at hcounters
  cases top with
  | nil =>
    obtain ⟨rfl, rfl⟩ := List.cons.inj hcounters
    refine .inl ⟨n, hbase, ?_⟩
    simp only [weight, List.flatMap_cons, hbase, hu, List.length_append, List.sum_append,
      List.length_cons, List.sum_cons] at hlt
    omega
  | cons l top =>
    obtain ⟨rfl, rfl⟩ := List.cons.inj hcounters
    exact .inr ⟨top, n, m, rest, hbase, rfl, hle⟩

/-- A closing brace takes away what is on top, as long as there is something. -/
theorem Holds.closes (h : s.Holds t) {t' : State} (hc : Closes t t') (hlt : s.depth < t.depth) :
    s.Holds t' := by
  have hweight : weight s.scope s.enclosing < weight t.scope t.enclosing := by
    rw [weight_eq_depth, weight_eq_depth]
    exact Nat.succ_lt_succ hlt
  unfold Holds at h ⊢
  obtain ⟨hus, hcovers⟩ | ⟨outer, enclosing', hus, hin⟩ := h.here_or_inside
  · rw [hus] at hweight
    cases hc with
    | counted origin before after enclosing =>
      rename_i k ks
      rw [enclosing, hus]
      refine .here ⟨origin.trans hcovers.1, ?_⟩
      obtain ⟨n, hbase, hn⟩ | ⟨top, n, m, rest, hbase, hks, hle⟩ := hcovers.lt_or_top before hweight
      · exact ⟨[], n, k, ks, hbase, after, Nat.le_of_lt_succ hn⟩
      · exact ⟨k :: top, n, m, rest, hbase, by rw [after, hks]; rfl, hle⟩
    | linkage origin before enclosing =>
      rw [enclosing, hus]
      obtain ⟨n, -, hn⟩ | ⟨top, n, m, rest, hbase, hks, hle⟩ := hcovers.lt_or_top before hweight
      · exact absurd hn (Nat.not_lt_zero n)
      · exact .here ⟨origin.trans hcovers.1, top, n, m, rest, hbase, hks, hle⟩
    | scope frame before enclosing =>
      -- a scope that counts nothing has nothing on top of `s`
      obtain ⟨n, -, hn⟩ | ⟨top, n, m, rest, -, hks, -⟩ := hcovers.lt_or_top before hweight
      · exact absurd hn (Nat.not_lt_zero n)
      · simp at hks
    | ignored before nothing same =>
      obtain ⟨n, -, hn⟩ | ⟨top, n, m, rest, -, hks, -⟩ := hcovers.lt_or_top before hweight
      · exact absurd hn (Nat.not_lt_zero n)
      · simp at hks
  · cases hc with
    | counted origin before after enclosing =>
      rw [enclosing, hus]
      exact .inside hin
    | linkage origin before enclosing =>
      rw [enclosing, hus]
      exact .inside hin
    | scope frame before enclosing =>
      obtain ⟨rfl, rfl⟩ := List.cons.inj (hus.symm.trans enclosing)
      exact hin.congr frame
    | ignored before nothing same => exact absurd (hus.symm.trans nothing) (List.cons_ne_nil _ _)

end State

/-! ## Sources -/

open State

/-- After any text the scanner reads in the layer that the text says, and as many contexts and braces
are open. -/
theorem braceCount_run (tree : Node) (text : List Char) :
    ((State.start tree).run text).ReadsIn (braceCount text).layer ∧
      ((State.start tree).run text).depth = braceDepth text := by
  induction text using List.reverseRecOn with
  | nil => exact ⟨readsIn_code rfl, rfl⟩
  | append_singleton text c ih =>
    obtain ⟨hreads, hdepth⟩ := ih
    rw [State.run_append, braceDepth, braceCount_concat]
    refine ⟨layer_step hreads c, ?_⟩
    change (((State.start tree).run text).step c).depth = _
    simp only [BraceCount.read]
    cases hcode : (braceCount text).layer.isCode c with
    | false =>
      rw [(sameFrames_step (hreads.1 ▸ hcode)).depth]
      exact hdepth
    | true =>
      have hmoves := moves_step (hreads.1 ▸ hcode)
      by_cases hopen : c = '\x7b'
      · rw [(hmoves.opens hopen).depth, hdepth, hopen]
        rfl
      · by_cases hclose : c = '\x7d'
        · rw [(hmoves.closes hclose).depth, hdepth, hclose]
          rfl
        · rw [(hmoves.stays hopen hclose).depth]
          simpa [hopen, hclose, braceDepth] using hdepth

/-- The frames stay open as long as the depth does not fall below what it was. -/
theorem holds_run (tree : Node) (before text : List Char)
    (h : ∀ part, part <+: text → braceDepth before ≤ braceDepth (before ++ part)) :
    ((State.start tree).run before).Holds ((State.start tree).run (before ++ text)) := by
  induction text using List.reverseRecOn with
  | nil =>
    rw [List.append_nil]
    exact .refl _
  | append_singleton text c ih =>
    have hholds := ih fun part hp => h part (hp.trans (List.prefix_append _ _))
    have hall := h (text ++ [c]) List.prefix_rfl
    rw [← List.append_assoc] at hall ⊢
    obtain ⟨-, hbefore⟩ := braceCount_run tree before
    obtain ⟨hreads, hdepth⟩ := braceCount_run tree (before ++ text)
    have hstep : (State.start tree).run (before ++ text ++ [c]) =
        ((State.start tree).run (before ++ text)).step c := State.run_append _ _ [c]
    have hafter := (braceCount_run tree (before ++ text ++ [c])).2
    rw [hstep] at hafter ⊢
    cases hcode : (braceCount (before ++ text)).layer.isCode c with
    | false => exact hholds.congr (sameFrames_step (hreads.1 ▸ hcode))
    | true =>
      have hmoves := moves_step (hreads.1 ▸ hcode)
      by_cases hopen : c = '\x7b'
      · exact hholds.opens (hmoves.opens hopen)
      · by_cases hclose : c = '\x7d'
        · have hcloses := hmoves.closes hclose
          obtain hzero | hpos := Nat.eq_zero_or_pos ((State.start tree).run (before ++ text)).depth
          · exact hholds.congr (hcloses.sameFrames hzero)
          · refine hholds.closes hcloses ?_
            rw [hcloses.depth] at hafter
            omega
        · exact hholds.congr (hmoves.stays hopen hclose)

/-- As many contexts are open above the outermost one, with the braces that all of them count, as
braces of the code are open in what was read. What a block opens stays open until the brace that
closes the block, and there the contexts are those from before the block. -/
theorem depth_run (tree : Node) (before : List Char) :
    let s := (State.start tree).run before
    s.depth = braceDepth before ∧
      ∀ body, IsBlock before body →
        Opens s (s.run ['\x7b']) ∧
        (∀ part, part <+: body → (s.run ['\x7b']).Holds (s.run ('\x7b' :: part))) ∧
        SameFrames s (s.run ('\x7b' :: body ++ ['\x7d'])) := by
  intro s
  obtain ⟨hreads, hdepth⟩ := braceCount_run tree before
  refine ⟨hdepth, fun body h => ?_⟩
  have hrun : ∀ text, s.run text = (State.start tree).run (before ++ text) := fun text =>
    (State.run_append _ _ _).symm
  have hopens : Opens s (s.run ['\x7b']) := (moves_step (hreads.1 ▸ h.opens)).opens rfl
  have hinside : ∀ part, part <+: body → (s.run ['\x7b']).Holds (s.run ('\x7b' :: part)) := by
    intro part hpart
    have := holds_run tree (before ++ ['\x7b']) part fun other hother => ?_
    · rwa [List.append_assoc, ← hrun, ← hrun] at this
    · have hless := h.inside other (hother.trans hpart)
      rw [← (braceCount_run tree (before ++ ['\x7b'])).2, ← hrun, hopens.depth, hdepth]
      rw [List.append_assoc]
      exact hless
  refine ⟨hopens, hinside, ?_⟩
  have hclosed : (s.run ('\x7b' :: body ++ ['\x7d'])).depth = s.depth := by
    rw [hrun, (braceCount_run tree _).2, hdepth, ← List.append_assoc]
    exact h.closes
  have hholds : s.Holds (s.run ('\x7b' :: body ++ ['\x7d'])) := by
    rw [hrun]
    refine holds_run tree before _ fun part hpart => ?_
    rcases List.prefix_concat_iff.mp hpart with rfl | hpart
    · rw [← List.append_assoc, h.closes]
    · rcases List.prefix_cons_iff.mp hpart with rfl | ⟨inner, rfl, hinner⟩
      · rw [List.append_nil]
      · exact Nat.le_of_lt (h.inside inner hinner)
  obtain ⟨hscope, henclosing⟩ :=
    hholds.weight_le.2 (by rw [weight_eq_depth, weight_eq_depth, hclosed])
  exact ⟨hscope, henclosing⟩

/-- Such a block is the body of a record, with the body of a function in it. -/
theorem depth_run_record :
    IsBlock "struct a ".toList " int f() \x7b \x7d /* \x7d */ ".toList ∧
      let s := (State.start .empty).run "struct a ".toList
      SameFrames s (s.run "\x7b int f() \x7b \x7d /* \x7d */ \x7d".toList) := by
  have hblock : IsBlock "struct a ".toList " int f() \x7b \x7d /* \x7d */ ".toList := by
    decide +kernel
  exact ⟨hblock, ((depth_run _ _).2 _ hblock).2.2⟩

end HeaderDocs.Scan
