import HeaderDocs.Proofs.Scan.Brackets
import Mathlib.Algebra.GroupWithZero.Nat

/-!
# Counters of open braces

Every brace of the code that is open is either counted by a context or has begun one: the body of a
record or of a namespace in a new scope, a linkage block in the same scope. `State.frames` are the
counters of all contexts, innermost first.

* `State.Opens`, `State.Closes`: what a brace can do to the frames.
* `State.moves_step`: a character of the code changes them only if it is a brace.
* `State.sameFrames_step`: a character of a comment, a literal or a directive never does.
-/
namespace HeaderDocs.Scan

/-! ## Counters -/

namespace OpenScope

/-- The braces that the contexts of a scope count, innermost first. -/
def counters (s : OpenScope) : List Nat := (s.context :: s.suspended).map (·.braces)

/-- What a scope is the body of, with its counters. -/
def braceFrame (s : OpenScope) : Origin × List Nat := (s.origin, s.counters)

theorem counters_eq (s : OpenScope) : s.counters = s.brackets.map Prod.fst := by
  rw [counters, brackets, List.map_map]
  rfl

theorem braceFrame_eq {s t : OpenScope} (h : t.skeleton = s.skeleton) : t.braceFrame = s.braceFrame := by
  have horigin : t.origin = s.origin := congrArg Prod.fst h
  rw [braceFrame, braceFrame, counters_eq, counters_eq, horigin, s.brackets_of_skeleton h]

end OpenScope

/-! ## Frames -/

namespace State

/-- The counters of all open contexts, innermost first. -/
def frames (s : State) : List Nat := (s.scope :: s.enclosing).flatMap (·.counters)

/-- The contexts that are open above the outermost one, and the braces that all of them count. -/
def depth (s : State) : Nat := s.frames.length - 1 + s.frames.sum

variable {s t : State}

/-- The open contexts and their counters are the same. -/
structure SameFrames (s t : State) : Prop where
  scope : t.scope.braceFrame = s.scope.braceFrame
  enclosing : t.enclosing = s.enclosing

/-- What an opening brace does. -/
inductive Opens (s t : State) : Prop
  /-- The innermost context counts it. -/
  | counted (origin : t.scope.origin = s.scope.origin) {n : Nat} {rest : List Nat}
      (before : s.scope.counters = n :: rest) (after : t.scope.counters = (n + 1) :: rest)
      (enclosing : t.enclosing = s.enclosing)
  /-- Another context of the same scope begins. -/
  | linkage (origin : t.scope.origin = s.scope.origin)
      (after : t.scope.counters = 0 :: s.scope.counters) (enclosing : t.enclosing = s.enclosing)
  /-- Another scope begins. -/
  | scope {outer : OpenScope} (frame : outer.braceFrame = s.scope.braceFrame)
      (after : t.scope.counters = [0]) (enclosing : t.enclosing = outer :: s.enclosing)

/-- What a closing brace does. -/
inductive Closes (s t : State) : Prop
  | counted (origin : t.scope.origin = s.scope.origin) {n : Nat} {rest : List Nat}
      (before : s.scope.counters = (n + 1) :: rest) (after : t.scope.counters = n :: rest)
      (enclosing : t.enclosing = s.enclosing)
  | linkage (origin : t.scope.origin = s.scope.origin)
      (before : s.scope.counters = 0 :: t.scope.counters) (enclosing : t.enclosing = s.enclosing)
  | scope {outer : OpenScope} (frame : t.scope.braceFrame = outer.braceFrame)
      (before : s.scope.counters = [0]) (enclosing : s.enclosing = outer :: t.enclosing)
  /-- No brace is open. -/
  | ignored (before : s.scope.counters = [0]) (nothing : s.enclosing = []) (same : SameFrames s t)

theorem SameFrames.refl : SameFrames s s := ⟨rfl, rfl⟩

theorem SameBrackets.sameFrames (h : SameBrackets s t) : SameFrames s t :=
  ⟨OpenScope.braceFrame_eq h.scope, h.enclosing⟩

theorem SameFrames.frames (h : SameFrames s t) : t.frames = s.frames := by
  have hcounters : t.scope.counters = s.scope.counters := congrArg Prod.snd h.scope
  simp only [State.frames, List.flatMap_cons, h.enclosing, hcounters]

/-! ### Opening braces -/

theorem opens_openBlock {f : OpenScope → OpenScope}
    (h : (f s.scope).skeleton = s.scope.skeleton) : Opens s (s.openBlock f) := by
  have hcounters : (f s.scope).counters = s.scope.counters :=
    congrArg Prod.snd (OpenScope.braceFrame_eq h)
  have hbefore : s.scope.counters = s.scope.context.braces :: s.scope.suspended.map (·.braces) := rfl
  refine .counted (congrArg Prod.fst h) hbefore ?_ rfl
  simp only [OpenScope.counters, List.map_cons, List.cons.injEq] at hcounters
  simp [openBlock, State.update, OpenScope.update, OpenScope.counters, hcounters]

theorem opens_openBrace (s : State) : Opens s s.openBrace := by
  refine s.openBrace_cases ?header ?record ?nameSpace ?enumeration ?linkage ?block
  case header => exact fun head _ => opens_openBlock (s.scope.skeleton_commitHeader head)
  case record =>
    intro kind _
    rw [openRecord_eq]
    exact .scope (OpenScope.braceFrame_eq (skeleton_beginRecord kind _ _ s.scope)) rfl rfl
  case nameSpace =>
    intro name rest _
    rw [openNameSpace_eq]
    exact .scope (OpenScope.braceFrame_eq (skeleton_beginNameSpace name s.scope)) rfl rfl
  case enumeration => exact opens_openBlock (skeleton_openEnumeration _ _ _)
  case linkage => exact .linkage rfl rfl rfl
  case block => exact opens_openBlock (s.scope.skeleton_update rfl)

/-! ### Closing braces -/

/-- Leaving the innermost context, which counts no brace. -/
theorem closes_pop (h : s.scope.context.braces = 0) : Closes s s.pop := by
  unfold State.pop
  split
  · rename_i context suspended hsuspended
    refine .linkage rfl ?_ rfl
    simp [OpenScope.counters, hsuspended, h]
  · rename_i outer enclosing hsuspended henclosing
    refine .scope (OpenScope.braceFrame_eq (skeleton_putBack s.scope outer)) ?_ henclosing
    simp [OpenScope.counters, hsuspended, h]
  · rename_i hsuspended henclosing
    refine .ignored ?_ henclosing .refl
    simp [OpenScope.counters, hsuspended, h]

theorem closes_closeBrace (s : State) : Closes s s.closeBrace := by
  rw [closeBrace_eq]
  split
  · rename_i hpos
    have hbefore : s.scope.counters =
        (s.scope.context.braces - 1 + 1) :: s.scope.suspended.map (·.braces) := by
      rw [Nat.sub_add_cancel hpos]
      rfl
    refine .counted rfl hbefore ?_ rfl
    exact congrArg (fun b : Nat × Nat => b.1 :: s.scope.suspended.map (·.braces))
      s.scope.context.brackets_afterBlock
  · rename_i hpos
    have hzero : s.scope.context.braces = 0 := by omega
    cases closes_pop (s := s.update (·.update .afterBody)) hzero with
    | counted _ before =>
      have hbraces : s.scope.context.braces = _ + 1 := (List.cons.inj before).1
      exact absurd hbraces (by omega)
    | linkage origin before enclosing => exact .linkage origin before enclosing
    | scope frame before enclosing => exact .scope frame before enclosing
    | ignored before nothing same => exact .ignored before nothing ⟨same.scope, same.enclosing⟩

/-! ### Characters -/

/-- What a character of the code does to the frames: only braces change them. -/
structure Moves (c : Char) (s t : State) : Prop where
  opens : c = '\x7b' → Opens s t
  closes : c = '\x7d' → Closes s t
  stays : c ≠ '\x7b' → c ≠ '\x7d' → SameFrames s t

theorem SameFrames.moves (h : SameFrames s t) {c : Char} (hopen : c ≠ '\x7b') (hclose : c ≠ '\x7d') :
    Moves c s t :=
  ⟨fun he => absurd he hopen, fun he => absurd he hclose, fun _ _ => h⟩

theorem Moves.of_sameFrames {u : State} {c : Char} (h : SameFrames s t) (hm : Moves c t u) :
    Moves c s u := by
  have horigin : t.scope.origin = s.scope.origin := congrArg Prod.fst h.scope
  have hcounters : t.scope.counters = s.scope.counters := congrArg Prod.snd h.scope
  refine ⟨fun he => ?_, fun he => ?_, fun h1 h2 => ?_⟩
  · cases hm.opens he with
    | counted origin before after enclosing =>
      exact .counted (origin.trans horigin) (hcounters ▸ before) after (enclosing.trans h.enclosing)
    | linkage origin after enclosing =>
      exact .linkage (origin.trans horigin) (hcounters ▸ after) (enclosing.trans h.enclosing)
    | scope frame after enclosing =>
      exact .scope (frame.trans h.scope) after (h.enclosing ▸ enclosing)
  · cases hm.closes he with
    | counted origin before after enclosing =>
      exact .counted (origin.trans horigin) (hcounters ▸ before) after (enclosing.trans h.enclosing)
    | linkage origin before enclosing =>
      exact .linkage (origin.trans horigin) (hcounters ▸ before) (enclosing.trans h.enclosing)
    | scope frame before enclosing =>
      exact .scope frame (hcounters ▸ before) (h.enclosing ▸ enclosing)
    | ignored before nothing same =>
      exact .ignored (hcounters ▸ before) (h.enclosing ▸ nothing)
        ⟨same.scope.trans h.scope, same.enclosing.trans h.enclosing⟩
  · have hs := hm.stays h1 h2
    exact ⟨hs.scope.trans h.scope, hs.enclosing.trans h.enclosing⟩

theorem moves_mark (s : State) (c : Char) : Moves c s (s.mark c) := by
  by_cases hopen : c = '\x7b'
  · subst hopen
    exact ⟨fun _ => opens_openBrace s, fun he => absurd he (by decide), fun h1 => absurd rfl h1⟩
  by_cases hclose : c = '\x7d'
  · subst hclose
    exact ⟨fun he => absurd he (by decide), fun _ => closes_closeBrace s, fun _ h2 => absurd rfl h2⟩
  refine SameFrames.moves ?_ hopen hclose
  -- a context counts parentheses apart from braces
  have hparen : ∀ {f : Context → Context}, (f s.scope.context).braces = s.scope.context.braces →
      SameFrames s (s.update (·.update f)) := fun hf => ⟨by
    simp [State.update, OpenScope.update, OpenScope.braceFrame, OpenScope.counters, hf], rfl⟩
  by_cases hopenParen : c = '('
  · subst hopenParen
    exact hparen (congrArg Prod.fst s.scope.context.brackets_openParen)
  by_cases hcloseParen : c = ')'
  · subst hcloseParen
    exact hparen (congrArg Prod.fst s.scope.context.brackets_closeParen)
  refine (s.sameBrackets_mark ?_).sameFrames
  simp [isBracket, hopen, hclose, hopenParen, hcloseParen]

/-- A character of the code, after a slash or a word that it ends. -/
theorem moves_step {c : Char} (h : (s.mode.layer).isCode c = true) : Moves c s (s.step c) := by
  cases step_of_code h with
  | mark before after =>
    rw [after]
    exact .of_sameFrames before.sameFrames (moves_mark _ c)
  | other hc same =>
    refine same.sameFrames.moves ?_ ?_ <;> rintro rfl <;> exact absurd hc (by decide)

/-- A character that is not part of the code changes no frame. -/
theorem sameFrames_step {c : Char} (h : (s.mode.layer).isCode c = false) : SameFrames s (s.step c) :=
  (sameBrackets_step h).sameFrames

/-! ### How many frames there are -/

theorem exists_frames (s : State) : ∃ n rest, s.frames = n :: rest :=
  ⟨s.scope.context.braces, s.scope.suspended.map (·.braces) ++ s.enclosing.flatMap (·.counters), rfl⟩

theorem SameFrames.depth (h : SameFrames s t) : t.depth = s.depth := by
  rw [State.depth, h.frames]
  rfl

theorem Opens.depth (h : Opens s t) : t.depth = s.depth + 1 := by
  obtain ⟨n, rest, hs⟩ := s.exists_frames
  cases h with
  | counted _ before after enclosing =>
    simp only [State.depth, frames, List.flatMap_cons, before, after, enclosing, List.length_append,
      List.sum_append, List.length_cons, List.sum_cons]
    omega
  | linkage _ after enclosing =>
    have ht : t.frames = 0 :: s.frames := by simp [frames, after, enclosing]
    simp [State.depth, ht, hs]
    omega
  | scope frame after enclosing =>
    have ht : t.frames = 0 :: s.frames := by
      have hcounters := congrArg Prod.snd frame
      simp only [OpenScope.braceFrame] at hcounters
      simp [frames, after, enclosing, hcounters]
    simp [State.depth, ht, hs]
    omega

theorem Closes.depth (h : Closes s t) : t.depth = s.depth - 1 := by
  obtain ⟨n, rest, ht⟩ := t.exists_frames
  cases h with
  | counted _ before after enclosing =>
    simp only [State.depth, frames, List.flatMap_cons, before, after, enclosing, List.length_append,
      List.sum_append, List.length_cons, List.sum_cons]
    omega
  | linkage _ before enclosing =>
    have hs : s.frames = 0 :: t.frames := by simp [frames, before, enclosing]
    simp [State.depth, ht, hs]
  | scope frame before enclosing =>
    have hs : s.frames = 0 :: t.frames := by
      have hcounters := congrArg Prod.snd frame
      simp only [OpenScope.braceFrame] at hcounters
      simp [frames, before, enclosing, hcounters]
    simp [State.depth, ht, hs]
  | ignored before nothing same =>
    have hs : s.frames = [0] := by simp [frames, before, nothing]
    simp [State.depth, same.frames, hs]

theorem Closes.sameFrames (h : Closes s t) (hzero : s.depth = 0) : SameFrames s t := by
  have hsome : ∀ {outer : OpenScope} {enclosing}, s.enclosing = outer :: enclosing → False := by
    intro outer enclosing he
    simp [State.depth, frames, he, OpenScope.counters] at hzero
  cases h with
  | counted _ before => simp [State.depth, frames, before] at hzero
  | linkage _ before =>
    have hs : s.frames = 0 :: t.scope.counters ++ s.enclosing.flatMap (·.counters) := by
      rw [← before]
      rfl
    simp [State.depth, hs, OpenScope.counters] at hzero
  | scope _ _ enclosing => exact (hsome enclosing).elim
  | ignored _ _ same => exact same

end State

end HeaderDocs.Scan
