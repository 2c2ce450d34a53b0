import HeaderDocs.Proofs.Scan.LeftOutPrototype

/-!
# Whose comment a declaration gets

A source of declarations is read statement by statement. A statement that records nothing leaves its
comment waiting, and so the next one that has none of its own is described by it.

* `run_statement`: what one statement records, and what it leaves waiting.
* `scan_statements`: the declarations of a source, each with the comment that describes it.
-/
namespace HeaderDocs.Scan

open HeaderDocs.Text

variable {s : OpenScope}

/-! ## Statements -/

inductive Declaration where
  | function (prototype : Prototype)
  | var (declared : Variable)

/-- A declaration with the block comment before it and the word that leaves it out, if any. -/
structure Statement where
  comment : Option BlockComment := none
  storage : Option Storage := none
  declaration : Declaration
  leads : storage.isSome = true → ∀ p, declaration = .function p → p.ParametersLead

namespace Statement

variable (i : Statement)

inductive Declared : List Char → Prop
  | function {p : Prototype} {void : Bool} {cs : List Char} : i.declaration = .function p →
      Spells (p.tokensAfter i.storage void) cs → Declared (cs ++ ['\n'])
  | var {v : Variable} {cs : List Char} : i.declaration = .var v →
      v.Spelled i.storage cs → Declared cs

/-- The texts of a statement, which ends with its line. -/
inductive Spelled : List Char → Prop
  | bare {cs : List Char} : i.comment = none → i.Declared cs → Spelled cs
  | commented {c : BlockComment} {gap cs : List Char} : i.comment = some c → IsGap gap →
      i.Declared cs → Spelled (c.chars ++ (gap ++ cs))

/-- The text of the comment before the declaration, or nothing. -/
def raw : String := (i.comment.map (·.text)).getD ""

/-- The kind and the name of what is recorded. -/
def declares? : Option (Kind × String) :=
  match i.storage, i.declaration with
  | none, .function p => some (.function, p.name.text)
  | some _, .function p => p.leftOver?.map (.var, ·)
  | none, .var v => if v.isMissed then none else some (.var, v.name.text)
  | some _, .var _ => none

/-- The comment that waits when the declaration is read after some that has been left. -/
def waiting (left : Option String) : Option String := if i.raw = "" then left else some i.raw

/-- What a declaration is shown with that is described by the comment that waits. -/
def shown (left : Option String) : String := (Comment.normalize ((i.waiting left).getD "")).text

def leaves (left : Option String) : Option String :=
  if i.declares?.isSome then none else i.waiting left

structure RecordedAs (left : Option String) (n : Node) : Prop where
  label : n.label? = i.declares?
  text : n.descriptionText = i.shown left
  recordable : Recordable n

end Statement

inductive StatementsText : List Statement → List Char → Prop
  | nil {gap : List Char} : IsGap gap → StatementsText [] gap
  | cons {i : Statement} {items : List Statement} {gap cs rest : List Char} :
      IsGap gap → i.Spelled cs → StatementsText items rest →
      StatementsText (i :: items) (gap ++ (cs ++ rest))

def withLeft (left : Option String) : List Statement → List (Statement × Option String)
  | [] => []
  | i :: items => (i, left) :: withLeft (i.leaves left) items

/-! ## One statement -/

theorem Prototype.exists_identifier_of_leftOver? {p : Prototype} {name : String}
    (h : p.leftOver? = some name) : ∃ w : Identifier, name = w.text := by
  unfold leftOver? at h
  split at h
  · cases h
  · obtain ⟨q, -, rfl⟩ := Option.map_eq_some_iff.mp h
    exact ⟨q.name, rfl⟩

theorem Prototype.recordable_toNode (p : Prototype) (comment : String) :
    Recordable (p.toNode comment) :=
  ⟨rfl, ⟨p.name.text, rfl, p.name.isRecordable⟩, (by decide : Kind.function ≠ .description)⟩

theorem Declarator.recordable_toVariable {d : Declarator} {w : Identifier} (hname : d.name = w.text)
    (comment : Option String) : Recordable (d.toVariable comment) := by
  refine ⟨d.hasScope_toVariable comment, ⟨w.text, ?_, w.isRecordable⟩, ?_⟩
  · rw [← hname]
    cases comment <;> rfl
  · cases comment <;> exact (by decide : Kind.var ≠ .description)

namespace Statement

variable {i : Statement} {cs : List Char}

theorem recordedAs_function {p : Prototype} (hdeclares : i.declares? = some (.function, p.name.text))
    (left : Option String) : i.RecordedAs left (p.toNode ((i.waiting left).getD "")) where
  label := hdeclares ▸ rfl
  text := p.descriptionText_toNode _
  recordable := p.recordable_toNode _

theorem recordedAs_variable {d : Declarator} {w : Identifier} (hname : d.name = w.text)
    (hdeclares : i.declares? = some (.var, w.text)) (left : Option String) :
    i.RecordedAs left (d.toVariable (i.waiting left)) where
  label := by rw [d.label?_toVariable, hname, hdeclares]
  text := d.descriptionText_toVariable _
  recordable := d.recordable_toVariable hname _

/-- A declaration that records nothing is passed over. -/
theorem passes (hroot : s.node.kind = .root) (hcs : i.Declared cs) (hnone : i.declares? = none)
    (comment : Option String) : PassesOver s comment cs := by
  obtain ⟨_, storage, declaration, hlead⟩ := i
  cases hcs with
  | function hdeclaration hcs =>
    obtain rfl : declaration = .function _ := hdeclaration
    cases storage with
    | none => cases hnone
    | some k =>
      exact Prototype.passes_leftOut hroot (hlead rfl _ rfl) k hcs (Option.map_eq_none_iff.mp hnone)
        comment
  | var hdeclaration hcs =>
    rename_i v
    obtain rfl : declaration = .var v := hdeclaration
    refine Variable.passes hroot hcs ?_ comment
    cases storage with
    | none =>
      change (if v.isMissed then none else some _) = none at hnone
      exact .inr (by simpa using hnone)
    | some k => exact .inl rfl

theorem records (hroot : s.node.kind = .root) (hcs : i.Declared cs)
    (hsome : i.declares?.isSome = true) (left : Option String) :
    ∃ n, i.RecordedAs left n ∧ Records s (i.waiting left) cs n := by
  obtain ⟨comment, storage, declaration, hlead⟩ := i
  cases hcs with
  | function hdeclaration hcs =>
    rename_i p void cs
    obtain rfl : declaration = .function p := hdeclaration
    cases storage with
    | none => exact ⟨_, recordedAs_function rfl left, run_prototype hroot hcs _⟩
    | some k =>
      obtain ⟨name, hname⟩ : ∃ name, p.leftOver? = some name :=
        Option.isSome_iff_exists.mp ((Option.isSome_map ..).symm.trans hsome)
      obtain ⟨w, rfl⟩ := p.exists_identifier_of_leftOver? hname
      obtain ⟨d, hd, hrecords⟩ := Prototype.records_leftOut hroot (hlead rfl _ rfl) k hcs hname _
      have hdeclares : declares? ⟨comment, some k, .function p, hlead⟩ = some (.var, w.text) :=
        congrArg (Option.map _) hname
      exact ⟨_, recordedAs_variable hd hdeclares left, hrecords⟩
  | var hdeclaration hcs =>
    rename_i v
    obtain rfl : declaration = .var v := hdeclaration
    cases storage with
    | none =>
      change (if v.isMissed then none else some _).isSome = true at hsome
      have hseen : v.isMissed = false := by
        by_contra h
        simp [h] at hsome
      have hdeclares : declares? ⟨comment, none, .var v, hlead⟩ = some (.var, v.name.text) :=
        if_neg (Bool.eq_false_iff.mp hseen)
      have hname : v.declarator.name = v.name.text := rfl
      exact ⟨_, recordedAs_variable hname hdeclares left, Variable.records hroot hcs hseen _⟩
    | some k => cases hsome

theorem run_comment (hroot : s.node.kind = .root) (hcs : i.Spelled cs) (left : Option String) :
    ∃ rest, i.Declared rest ∧ (State.reading s { comment := left }).run cs =
      (State.reading s { comment := i.waiting left }).run rest := by
  unfold waiting raw
  cases hcs with
  | bare hcomment hcs =>
    refine ⟨cs, hcs, ?_⟩
    rw [hcomment]
    rfl
  | commented hcomment hgap hcs =>
    rename_i c gap cs
    refine ⟨cs, hcs, ?_⟩
    rw [State.run_append, run_blockComment hroot left c, State.run_append,
      State.run_gap_unclaimed rfl rfl hgap, hcomment]
    rfl

end Statement

/-- A statement records a node or none, and leaves its comment in the second case. -/
theorem run_statement (hroot : s.node.kind = .root) {i : Statement} {cs : List Char}
    (hcs : i.Spelled cs) (left : Option String) :
    ∃ (nodes : List Node) (s' : OpenScope),
      List.Forall₂ (fun e n => e.1.RecordedAs e.2 n)
        ([(i, left)].filter (·.1.declares?.isSome)) nodes ∧
      s'.node = nodes.foldl record s.node ∧
      (State.reading s { comment := left }).run cs =
        State.reading s' { comment := i.leaves left } := by
  obtain ⟨rest, hrest, hrun⟩ := i.run_comment hroot hcs left
  unfold Statement.leaves
  by_cases hsome : i.declares?.isSome = true
  · obtain ⟨n, hn, s', hnode, hrecords⟩ := Statement.records hroot hrest hsome left
    refine ⟨[n], s', ?_, hnode, ?_⟩
    · rw [List.filter_cons_of_pos (by exact hsome)]
      exact .cons hn .nil
    · rw [if_pos hsome]
      exact hrun.trans hrecords
  · refine ⟨[], s, ?_, rfl, ?_⟩
    · rw [List.filter_cons_of_neg (by exact hsome)]
      exact .nil
    · rw [if_neg hsome]
      exact hrun.trans (Statement.passes hroot hrest (by simpa using hsome) _)

/-! ## All statements -/

theorem kind_foldl_record (nodes : List Node) (scope : Node) :
    (nodes.foldl record scope).kind = scope.kind := by
  induction nodes generalizing scope with
  | nil => rfl
  | cons n nodes ih => rw [List.foldl_cons, ih, kind_record]

theorem run_statements (hroot : s.node.kind = .root) {items : List Statement} {cs : List Char}
    (hcs : StatementsText items cs) (left : Option String) :
    ∃ (nodes : List Node) (s' : OpenScope) (left' : Option String),
      List.Forall₂ (fun e n => e.1.RecordedAs e.2 n)
        ((withLeft left items).filter (·.1.declares?.isSome)) nodes ∧
      s'.node = nodes.foldl record s.node ∧
      (State.reading s { comment := left }).run cs = State.reading s' { comment := left' } := by
  induction hcs generalizing s left with
  | nil hgap => exact ⟨[], s, left, .nil, rfl, State.run_gap_unclaimed rfl rfl hgap⟩
  | cons hgap hitem _ ih =>
    rename_i i items gap cs rest _
    obtain ⟨nodes, s', hnodes, hs', hrun⟩ := run_statement hroot hitem left
    obtain ⟨nodes', s'', left', hnodes', hs'', hrest⟩ :=
      ih (s := s') (by rw [hs', kind_foldl_record, hroot]) (i.leaves left)
    refine ⟨nodes ++ nodes', s'', left', ?_, by rw [hs'', hs', List.foldl_append], ?_⟩
    · rw [show withLeft left (i :: items) = [(i, left)] ++ withLeft (i.leaves left) items from rfl,
        List.filter_append]
      exact List.rel_append hnodes hnodes'
    · rw [State.run_append, State.run_gap_unclaimed rfl rfl hgap, State.run_append, hrun, hrest]

/-! ## The declarations of a source -/

/-- The last statement that declares a label and is not private, with the comment left to it. -/
def lastShown? (items : List Statement) (label : Kind × String) :
    Option (Statement × Option String) :=
  (withLeft none items).reverse.find? fun e =>
    e.1.declares? == some label && !Comment.isPrivate (e.1.shown e.2)

/-- What a tree says of a source of declarations. -/
structure Describes (tree : Node) (items : List Statement) : Prop where
  root : tree = Node.empty.withChildren tree.children
  unique : (tree.children.filterMap Node.label?).Nodup
  /-- The labels of the tree are those that a statement declares that is not private. -/
  recorded : ∀ label, (∃ n ∈ tree.children, n.label? = some label) ↔ (lastShown? items label).isSome
  /-- What is recorded has the comment of its own statement, or else what was left waiting. -/
  described : ∀ n ∈ tree.children, ∃ label i left, n.label? = some label ∧
    lastShown? items label = some (i, left) ∧ n.descriptionText = i.shown left
  /-- If every comment stands before a declaration that is recorded, it is the comment of the
  statement. -/
  own : (∀ i ∈ items, i.raw ≠ "" → i.declares?.isSome = true) → ∀ n ∈ tree.children,
    ∃ label i, n.label? = some label ∧ lastShown? items label = some (i, none) ∧
      n.descriptionText = (Comment.normalize i.raw).text

theorem find?_forall₂ {α β : Type} {r : α → β → Prop} {p : α → Bool} {q : β → Bool} {xs : List α}
    {ys : List β} (h : List.Forall₂ r xs ys) (hpq : ∀ x y, r x y → p x = q y) :
    Option.Rel r (xs.find? p) (ys.find? q) := by
  induction h with
  | nil => exact .none
  | cons hr _ ih =>
    rename_i x y xs ys _
    rw [List.find?_cons, List.find?_cons, hpq x y hr]
    cases q y with
    | true => exact .some hr
    | false => exact ih

theorem recordable_of_forall₂ {items : List (Statement × Option String)} {nodes : List Node}
    (h : List.Forall₂ (fun e n => e.1.RecordedAs e.2 n) items nodes) :
    ∀ n ∈ nodes, Recordable n := by
  induction h with
  | nil => exact nofun
  | cons hn _ ih => exact List.forall_mem_cons.mpr ⟨hn.recordable, ih⟩

/-- The node that is recorded last for a label is that of the last statement that shows it. -/
theorem rel_lastShown? {items : List Statement} {nodes : List Node}
    (h : List.Forall₂ (fun e n => e.1.RecordedAs e.2 n)
      ((withLeft none items).filter (·.1.declares?.isSome)) nodes) (label : Kind × String) :
    Option.Rel (fun e n => e.1.RecordedAs e.2 n) (lastShown? items label)
      (lastPublicNode? nodes (some label)) := by
  have hfilter : lastShown? items label =
      ((withLeft none items).filter (·.1.declares?.isSome)).reverse.find? fun e =>
        e.1.declares? == some label && !Comment.isPrivate (e.1.shown e.2) := by
    unfold lastShown?
    rw [← List.filter_reverse, List.find?_filter]
    congr 1
    funext e
    cases e.1.declares? <;> simp [beq_eq_decide]
  rw [hfilter]
  refine find?_forall₂ (List.forall₂_reverse_iff.mpr h) fun e n hn => ?_
  rw [hn.label, Node.isPrivate, hn.text, Statement.shown]

/-- Nothing is left waiting, if every comment stands before a declaration that is recorded. -/
theorem left_eq_none {items : List Statement}
    (h : ∀ i ∈ items, i.raw ≠ "" → i.declares?.isSome = true) :
    ∀ e ∈ withLeft none items, e.2 = none := by
  induction items with
  | nil => exact nofun
  | cons i items ih =>
    have hleaves : i.leaves none = none := by
      unfold Statement.leaves Statement.waiting
      by_cases hraw : i.raw = ""
      · simp [hraw]
      · rw [if_pos (h i (List.mem_cons_self ..) hraw)]
    intro e he
    rcases List.mem_cons.mp he with rfl | he
    · rfl
    · rw [hleaves] at he
      exact ih (fun j hj => h j (List.mem_cons_of_mem _ hj)) e he

theorem Statement.shown_none (i : Statement) : i.shown none = (Comment.normalize i.raw).text := by
  unfold shown waiting
  split
  · rename_i hraw
    rw [hraw]
    rfl
  · rfl

theorem Recorded.mem_iff_label {nodes children : List Node} (h : Recorded nodes children)
    (label : Kind × String) (n : Node) :
    n ∈ children ∧ n.label? = some label ↔ lastPublicNode? nodes (some label) = some n := by
  rw [h.mem_iff]
  constructor
  · rintro ⟨hn, hlabel⟩
    rwa [hlabel] at hn
  · intro hn
    have hlabel : n.label? = some label := by
      have := List.find?_some hn
      simp only [Bool.and_eq_true, beq_iff_eq] at this
      exact this.1
    exact ⟨hlabel ▸ hn, hlabel⟩

section

variable {items : List Statement} {nodes children : List Node}

theorem exists_lastShown? (hchildren : Recorded nodes children)
    (hnodes : List.Forall₂ (fun e n => e.1.RecordedAs e.2 n)
      ((withLeft none items).filter (·.1.declares?.isSome)) nodes) {n : Node} (hn : n ∈ children) :
    ∃ label i left, n.label? = some label ∧ lastShown? items label = some (i, left) ∧
      n.descriptionText = i.shown left := by
  have hrecordable : Recordable n :=
    recordable_of_forall₂ hnodes n (mem_of_lastPublicNode? ((hchildren.mem_iff n).mp hn))
  obtain ⟨name, hname, -⟩ := hrecordable.name
  have hlabel : n.label? = some (n.kind, name) := by simp [Node.label?, hname]
  have hrel := rel_lastShown? hnodes (n.kind, name)
  rw [(hchildren.mem_iff_label _ n).mp ⟨hn, hlabel⟩] at hrel
  generalize hshown : lastShown? items (n.kind, name) = shown at hrel
  cases hrel with
  | some he => exact ⟨_, _, _, hlabel, hshown, he.text⟩

theorem exists_label_iff (hchildren : Recorded nodes children)
    (hnodes : List.Forall₂ (fun e n => e.1.RecordedAs e.2 n)
      ((withLeft none items).filter (·.1.declares?.isSome)) nodes) (label : Kind × String) :
    (∃ n ∈ children, n.label? = some label) ↔ (lastShown? items label).isSome := by
  have hrel := rel_lastShown? hnodes label
  simp only [hchildren.mem_iff_label]
  generalize lastShown? items label = shown at hrel
  generalize lastPublicNode? nodes (some label) = last at hrel
  cases hrel <;> simp

end

/-- A source of declarations is documented by the last public declaration of each name. Each is
described by the comment of its own statement, and if that is missing by the last comment before it
that has been left waiting since. -/
theorem scan_statements {items : List Statement} {text : String}
    (h : StatementsText items text.toList) : Describes (scan text .empty) items := by
  obtain ⟨nodes, s', left', hnodes, hs', hrun⟩ :=
    run_statements (s := .begin .empty .source) rfl h none
  obtain ⟨children, hchildren, hfold⟩ := recorded_nil.foldl nofun (recordable_of_forall₂ hnodes)
  have hscan : scan text .empty = Node.empty.withChildren children := by
    have hstart : State.start .empty = State.reading (.begin .empty .source) {} := rfl
    unfold scan scanWithEvents
    rw [hstart, hrun]
    exact hs'.trans hfold
  rw [hscan]
  exact
    { root := rfl
      unique := hchildren.arranged.unique
      recorded := exists_label_iff hchildren hnodes
      described := fun n hn => exists_lastShown? hchildren hnodes hn
      own := fun hown n hn => by
        obtain ⟨label, i, left, hlabel, hshown, htext⟩ := exists_lastShown? hchildren hnodes hn
        obtain rfl : left = none :=
          left_eq_none hown _ (List.mem_reverse.mp (List.mem_of_find?_eq_some hshown))
        exact ⟨label, i, hlabel, hshown, htext.trans i.shown_none⟩ }

/-- A documented variable, and a comment that is left by one whose end is missed to the function after
it. -/
theorem scan_statements_missedVariable :
    let long : WrittenType := ⟨[.ofText "long" (by decide +kernel)], 0, List.cons_ne_nil _ _⟩
    let counted : Variable :=
      ⟨long, .ofText "count" (by decide +kernel), some ⟨"1", by decide +kernel⟩, false,
        by decide +kernel⟩
    let missed : Variable := ⟨long, .ofText "x" (by decide +kernel), none, true, by decide +kernel⟩
    let function : Prototype :=
      { result := long
        name := .ofText "f" (by decide +kernel)
        leads := by decide +kernel
        returns := by decide +kernel }
    let items : List Statement :=
      [⟨some ⟨" How many. ".toList, by decide +kernel⟩, none, .var counted, nofun⟩,
        ⟨some ⟨" Where. ".toList, by decide +kernel⟩, none, .var missed, nofun⟩,
        ⟨none, none, .function function, nofun⟩]
    let text := "/* How many. */\nlong count = 1;\n/* Where. */\nlong x ;\nlong f(void);\n"
    StatementsText items text.toList ∧ Describes (scan text .empty) items := by
  intro long counted missed function items text
  have hcounted : Variable.Spelled counted none _ :=
    .intro (.word (by decide : IsGap [' ']) (by simp) <| .word (by decide : IsGap [' ']) (by simp) <|
      .mark (by decide : IsGap [' ']) .nil) (by decide : IsGap []) rfl (by decide : IsGap [])
  have hmissed : Variable.Spelled missed none _ :=
    .intro (.word (by decide : IsGap [' ']) (by simp) .nil) (by decide : IsGap [' ']) rfl
      (by decide : IsGap [])
  have hfunction : Spells (function.tokensAfter none true) _ :=
    .word (by decide : IsGap [' ']) (by simp) <| .opening (by decide : IsGap []) <|
    .word (by decide : IsGap []) (fun _ => ⟨')', rfl⟩) <| .mark (by decide : IsGap []) <|
    .mark (by decide : IsGap []) .nil
  have hsource : StatementsText items _ :=
    .cons (by decide : IsGap []) (.commented rfl (by decide : IsGap ['\n']) (.var rfl hcounted)) <|
    .cons (by decide : IsGap []) (.commented rfl (by decide : IsGap ['\n']) (.var rfl hmissed)) <|
    .cons (by decide : IsGap []) (.bare rfl (.function rfl hfunction)) <|
    .nil (by decide : IsGap [])
  have htext : StatementsText items text.toList :=
    Eq.subst (motive := StatementsText items) (by decide +kernel) hsource
  exact ⟨htext, scan_statements htext⟩

/-- A function without a comment is described by that of a function before it that is left out. -/
theorem scan_statements_leftComment :
    let text := "/* c */ static int f(void);\nint g(void);\n"
    ∃ first second : Statement, StatementsText [first, second] text.toList ∧ first.raw = "c" ∧
      first.declares? = none ∧ second.comment = none ∧
      second.declares? = some (.function, "g") ∧
      (scan text .empty).children.map (fun n => (n.label?, n.descriptionText)) =
        [(some (.function, "g"), "c")] := by
  intro text
  let int : WrittenType := ⟨[.ofText "int" (by decide +kernel)], 0, List.cons_ne_nil _ _⟩
  let f : Prototype :=
    { result := int
      name := .ofText "f" (by decide +kernel)
      leads := by decide +kernel
      returns := by decide +kernel }
  let g : Prototype := { f with name := .ofText "g" (by decide +kernel) }
  let first : Statement :=
    ⟨some ⟨" c ".toList, by decide +kernel⟩, some .static, .function f,
      fun _ p hp => by cases hp; decide⟩
  let second : Statement := ⟨none, none, .function g, nofun⟩
  have hf : Spells (f.tokensAfter (some .static) true) _ :=
    .word (by decide : IsGap [' ']) (by simp) <| .word (by decide : IsGap [' ']) (by simp) <|
    .opening (by decide : IsGap []) <| .word (by decide : IsGap []) (fun _ => ⟨')', rfl⟩) <|
    .mark (by decide : IsGap []) <| .mark (by decide : IsGap []) .nil
  have hg : Spells (g.tokensAfter none true) _ :=
    .word (by decide : IsGap [' ']) (by simp) <| .opening (by decide : IsGap []) <|
    .word (by decide : IsGap []) (fun _ => ⟨')', rfl⟩) <| .mark (by decide : IsGap []) <|
    .mark (by decide : IsGap []) .nil
  have hsource : StatementsText [first, second] _ :=
    .cons (by decide : IsGap []) (.commented rfl (by decide : IsGap [' ']) (.function rfl hf)) <|
    .cons (by decide : IsGap []) (.bare rfl (.function rfl hg)) <|
    .nil (by decide : IsGap [])
  have htext : StatementsText [first, second] text.toList :=
    Eq.subst (motive := StatementsText [first, second]) (by decide +kernel) hsource
  exact ⟨first, second, htext, by decide +kernel, by decide +kernel, rfl, rfl, by decide +kernel⟩

end HeaderDocs.Scan
