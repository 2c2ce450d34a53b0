import HeaderDocs.Proofs.Tree.Everywhere
import HeaderDocs.Tree.Description
import HeaderDocs.Tree.Insert
import Mathlib.Data.List.Perm.Basic

/-!
# How the children of a node are kept

The children of a scope (`Kind.isScope`) are named nodes in ascending order of name, no two of a
kind and name, and at most one description; a function has at most one result, at most one
description, and arguments. `WellKept` says so of one node.

* `wellKept_isLocal`: only the kinds and names of the children matter.
* `WellKept.describe`, `WellKept.eraseIdx`: describing a node and taking a child out.
* `WellKept.insert`: inserting a node into a scope in order of name.
-/
namespace HeaderDocs

/-- Kinds of nodes that declarations are recorded in. -/
def Kind.isScope : Kind → Bool
  | .root | .nameSpace | .classType | .structType | .unionType | .enumType => true
  | _ => false

namespace Node

/-- The kind and the name that a named node is recorded under. -/
def label? (n : Node) : Option (Kind × String) := n.name.map (n.kind, ·)

theorem isNamed_iff_label? {k : Kind} {name : String} {n : Node} :
    isNamed k (some name) n = true ↔ n.label? = some (k, name) := by
  simp only [isNamed, label?, Option.isNone_some, Bool.false_or, Bool.and_eq_true, beq_iff_eq,
    Option.map_eq_some_iff, Prod.mk.injEq]
  constructor
  · rintro ⟨hk, hn⟩
    exact ⟨name, hn, hk, rfl⟩
  · rintro ⟨other, hn, hk, rfl⟩
    exact ⟨hk, hn⟩

/-! ## The children of a scope -/

/-- How the children of a scope are kept. -/
structure Arranged (cs : List Node) : Prop where
  sorted : (cs.filterMap (·.name)).Pairwise (· ≤ ·)
  unique : (cs.filterMap label?).Nodup
  recordable : ∀ c ∈ cs, ∀ name, c.name = some name → isRecordable name = true
  described : cs.countP (isKind .description) ≤ 1
  /-- Nothing but the description has no name. -/
  unnamed : ∀ c ∈ cs, c.name = none → c.kind = .description

/-- How the children of a function are kept. -/
structure Outlined (cs : List Node) : Prop where
  results : cs.countP (isKind .result) ≤ 1
  described : cs.countP (isKind .description) ≤ 1
  parts : ∀ c ∈ cs, c.kind = .result ∨ c.kind = .description ∨ c.kind = .argument

/-- The children of a node are kept as its kind demands. -/
structure WellKept (n : Node) : Prop where
  arranged : n.kind.isScope = true → Arranged n.children
  outlined : n.kind = .function → Outlined n.children

/-! ## Only kinds and names of children matter -/

theorem countP_isKind_eq (k : Kind) (cs : List Node) :
    cs.countP (isKind k) = (cs.map key).countP (·.1 == k) := by
  rw [List.countP_map]; rfl

theorem forall_mem_of_map_key {cs ds : List Node} (h : cs.map key = ds.map key)
    {p : Kind → Option String → Prop} (hp : ∀ c ∈ cs, p c.kind c.name) :
    ∀ d ∈ ds, p d.kind d.name := by
  intro d hd
  have : d.key ∈ cs.map key := h ▸ List.mem_map_of_mem hd
  obtain ⟨c, hc, he⟩ := List.mem_map.mp this
  rw [← kind_eq_of_key he, ← name_eq_of_key he]
  exact hp c hc

theorem filterMap_name_eq (cs : List Node) : cs.filterMap (·.name) = (cs.map key).filterMap (·.2) := by
  rw [List.filterMap_map]; rfl

theorem filterMap_label?_eq (cs : List Node) :
    cs.filterMap label? = (cs.map key).filterMap fun k => k.2.map (k.1, ·) := by
  rw [List.filterMap_map]; rfl

theorem Arranged.of_map_key {cs ds : List Node} (h : Arranged cs) (he : cs.map key = ds.map key) :
    Arranged ds where
  sorted := by rw [filterMap_name_eq, ← he, ← filterMap_name_eq]; exact h.sorted
  unique := by rw [filterMap_label?_eq, ← he, ← filterMap_label?_eq]; exact h.unique
  recordable := forall_mem_of_map_key he
    (p := fun _ name? => ∀ name, name? = some name → isRecordable name = true) h.recordable
  described := by rw [countP_isKind_eq, ← he, ← countP_isKind_eq]; exact h.described
  unnamed := forall_mem_of_map_key he (p := fun k name? => name? = none → k = .description) h.unnamed

theorem Outlined.of_map_key {cs ds : List Node} (h : Outlined cs) (he : cs.map key = ds.map key) :
    Outlined ds where
  results := by rw [countP_isKind_eq, ← he, ← countP_isKind_eq]; exact h.results
  described := by rw [countP_isKind_eq, ← he, ← countP_isKind_eq]; exact h.described
  parts := forall_mem_of_map_key he
    (p := fun k _ => k = .result ∨ k = .description ∨ k = .argument) h.parts

theorem wellKept_isLocal : IsLocal WellKept := by
  intro m n hk hcs h
  exact ⟨fun hs => (h.arranged (hk ▸ hs)).of_map_key hcs, fun hf => (h.outlined (hk.trans hf)).of_map_key hcs⟩

/-! ## Taking children out -/

theorem Arranged.sublist {cs ds : List Node} (h : Arranged cs) (hs : ds.Sublist cs) :
    Arranged ds where
  sorted := h.sorted.sublist (hs.filterMap _)
  unique := h.unique.sublist (hs.filterMap _)
  recordable := fun c hc => h.recordable c (hs.subset hc)
  described := Nat.le_trans hs.countP_le h.described
  unnamed := fun c hc => h.unnamed c (hs.subset hc)

theorem Outlined.sublist {cs ds : List Node} (h : Outlined cs) (hs : ds.Sublist cs) :
    Outlined ds where
  results := Nat.le_trans hs.countP_le h.results
  described := Nat.le_trans hs.countP_le h.described
  parts := fun c hc => h.parts c (hs.subset hc)

theorem WellKept.eraseIdx {n : Node} (h : WellKept n) (i : Nat) :
    WellKept (n.withChildren (n.children.eraseIdx i)) where
  arranged := fun hs => (h.arranged hs).sublist (List.eraseIdx_sublist _ i)
  outlined := fun hf => (h.outlined hf).sublist (List.eraseIdx_sublist _ i)

/-! ## Describing -/

@[simp] theorem kind_descriptionOf (text : String) : (descriptionOf text).kind = .description := rfl

@[simp] theorem name_descriptionOf (text : String) : (descriptionOf text).name = none := rfl

@[simp] theorem isKind_descriptionOf (text : String) :
    isKind .description (descriptionOf text) = true := rfl

/-- Where there was at most one child of a kind, erasing the first leaves none. -/
theorem countP_eraseP_eq_zero {p : Node → Bool} {cs : List Node} (h : cs.countP p ≤ 1) :
    (cs.eraseP p).countP p = 0 := by
  induction cs with
  | nil => rfl
  | cons c cs ih =>
    by_cases hc : p c = true
    · rw [List.countP_cons_of_pos hc] at h
      simp only [List.eraseP_cons_of_pos hc]
      omega
    · rw [List.countP_cons_of_neg hc] at h
      rw [List.eraseP_cons_of_neg hc, List.countP_cons_of_neg hc]
      exact ih h

theorem Arranged.describe {cs : List Node} (h : Arranged cs) (text : String) :
    Arranged (cs.eraseP (isKind .description) ++ [descriptionOf text]) where
  sorted := by
    have := (h.sublist (List.eraseP_sublist (p := isKind .description))).sorted
    simpa [List.filterMap_append, List.filterMap_cons] using this
  unique := by
    have := (h.sublist (List.eraseP_sublist (p := isKind .description))).unique
    simpa [List.filterMap_append, List.filterMap_cons, label?] using this
  recordable := by
    intro c hc name hn
    rcases List.mem_append.mp hc with hc | hc
    · exact (h.sublist List.eraseP_sublist).recordable c hc name hn
    · rw [List.mem_singleton.mp hc] at hn
      cases hn
  described := by
    have := countP_eraseP_eq_zero h.described
    simp [List.countP_append, this]
  unnamed := by
    intro c hc hn
    rcases List.mem_append.mp hc with hc | hc
    · exact (h.sublist List.eraseP_sublist).unnamed c hc hn
    · rw [List.mem_singleton.mp hc]
      rfl

theorem Outlined.describe {cs : List Node} (h : Outlined cs) (text : String) :
    Outlined (cs.eraseP (isKind .description) ++ [descriptionOf text]) where
  results := by
    have := (h.sublist (List.eraseP_sublist (p := isKind .description))).results
    simpa [List.countP_append, isKind] using this
  described := by
    have := countP_eraseP_eq_zero h.described
    simp [List.countP_append, this]
  parts := by
    intro c hc
    rcases List.mem_append.mp hc with hc | hc
    · exact (h.sublist List.eraseP_sublist).parts c hc
    · rw [List.mem_singleton.mp hc]
      exact .inr (.inl rfl)

/-- Describing a node replaces its description and changes nothing else of its children. -/
theorem children_describe (n : Node) (raw : String) :
    (n.describe raw).children =
      n.children.eraseP (isKind .description) ++ [descriptionOf (Comment.normalize raw).text] := by
  unfold Node.describe
  dsimp only
  split <;> rfl

@[simp] theorem name_describe (n : Node) (raw : String) : (n.describe raw).name = n.name := by
  unfold Node.describe
  dsimp only
  split <;> rfl

@[simp] theorem scope_describe (n : Node) (raw : String) : (n.describe raw).scope = n.scope := by
  unfold Node.describe
  dsimp only
  split <;> rfl

@[simp] theorem key_describe (n : Node) (raw : String) : (n.describe raw).key = n.key := by
  simp [key]

@[simp] theorem key_describeIf (n : Node) (raw? : Option String) :
    (n.describeIf raw?).key = n.key := by
  cases raw? with
  | none => rfl
  | some raw => exact key_describe n raw

@[simp] theorem scope_describeIf (n : Node) (raw? : Option String) :
    (n.describeIf raw?).scope = n.scope := by
  cases raw? with
  | none => rfl
  | some raw => exact scope_describe n raw

theorem WellKept.describe {n : Node} (h : WellKept n) (raw : String) : WellKept (n.describe raw) where
  arranged := by
    intro hs
    rw [children_describe]
    exact (h.arranged (by simpa using hs)).describe _
  outlined := by
    intro hf
    rw [children_describe]
    exact (h.outlined (by simpa using hf)).describe _

/-! ## Inserting -/

/-- Inserting before the first element that a test accepts. -/
theorem insertIdx_findIdx {α : Type} (p : α → Bool) (x : α) (l : List α) :
    l.insertIdx (l.findIdx p) x = l.takeWhile (!p ·) ++ x :: l.dropWhile (!p ·) := by
  induction l with
  | nil => rfl
  | cons a l ih =>
    by_cases h : p a = true
    · simp [List.findIdx_cons, h]
    · simp [List.findIdx_cons, h, ih]

theorem sortsAfter_iff {name other : String} {c : Node} (h : c.name = some other) :
    sortsAfter name c = true ↔ name < other := by
  simp [sortsAfter, h]

theorem sortsAfter_of_unnamed {name : String} {c : Node} (h : c.name = none) :
    sortsAfter name c = false := by
  simp [sortsAfter, h]

/-- Ascending names stay ascending when one is put before the first that is greater. -/
theorem sorted_insert (name : String) {cs : List Node}
    (h : (cs.filterMap (·.name)).Pairwise (· ≤ ·)) :
    ((cs.takeWhile (!sortsAfter name ·)).filterMap (·.name) ++
      name :: (cs.dropWhile (!sortsAfter name ·)).filterMap (·.name)).Pairwise (· ≤ ·) := by
  induction cs with
  | nil => simp
  | cons c cs ih =>
    cases hc : c.name with
    | none =>
      rw [List.filterMap_cons_none hc] at h
      simpa [sortsAfter_of_unnamed hc, hc] using ih h
    | some other =>
      rw [List.filterMap_cons_some hc, List.pairwise_cons] at h
      obtain ⟨hother, hcs⟩ := h
      by_cases hlt : name < other
      · -- everything from here on is greater
        have hle : name ≤ other := String.not_lt.mp (String.lt_asymm hlt)
        simp only [List.takeWhile_cons, List.dropWhile_cons, (sortsAfter_iff hc).mpr hlt,
          Bool.not_true, Bool.false_eq_true, if_false, List.filterMap_nil, List.nil_append,
          List.filterMap_cons_some hc, List.pairwise_cons]
        refine ⟨?_, hother, hcs⟩
        intro x hx
        rcases List.mem_cons.mp hx with rfl | hx
        · exact hle
        · exact String.le_trans hle (hother x hx)
      · have hno : sortsAfter name c = false := by simpa [sortsAfter, hc] using hlt
        simp only [List.takeWhile_cons, List.dropWhile_cons, hno, Bool.not_false, if_true,
          List.filterMap_cons_some hc, List.cons_append, List.pairwise_cons]
        refine ⟨?_, ih hcs⟩
        intro x hx
        rw [List.mem_append, List.mem_cons] at hx
        rcases hx with hx | rfl | hx
        · exact hother x ((List.takeWhile_sublist _).filterMap _ |>.subset hx)
        · exact String.not_lt.mp hlt
        · exact hother x ((List.dropWhile_sublist _).filterMap _ |>.subset hx)

/-- Inserting a node of a kind and name that no child has. -/
theorem Arranged.insert {cs : List Node} (h : Arranged cs) {node : Node} {name : String}
    (hname : node.name = some name) (hrec : isRecordable name = true)
    (hkind : node.kind ≠ .description) (hnew : (node.kind, name) ∉ cs.filterMap label?) :
    Arranged (cs.insertIdx (cs.findIdx (sortsAfter name)) node) := by
  have hperm : (cs.insertIdx (cs.findIdx (sortsAfter name)) node).Perm (node :: cs) :=
    List.perm_insertIdx _ _ List.findIdx_le_length
  refine ⟨?_, ?_, ?_, ?_, ?_⟩
  · rw [insertIdx_findIdx, List.filterMap_append, List.filterMap_cons_some hname]
    exact sorted_insert name h.sorted
  · rw [(hperm.filterMap label?).nodup_iff]
    have hl : node.label? = some (node.kind, name) := by simp [label?, hname]
    rw [List.filterMap_cons_some hl, List.nodup_cons]
    exact ⟨hnew, h.unique⟩
  · intro c hc other hother
    rcases List.mem_cons.mp (hperm.subset hc) with rfl | hc
    · rw [hname] at hother
      cases hother
      exact hrec
    · exact h.recordable c hc other hother
  · rw [hperm.countP_eq, List.countP_cons_of_neg (by simpa [isKind] using hkind)]
    exact h.described
  · intro c hc hnone
    rcases List.mem_cons.mp (hperm.subset hc) with rfl | hc
    · rw [hname] at hnone
      cases hnone
    · exact h.unnamed c hc hnone

/-- Taking out the first child of a kind and name leaves no other. -/
theorem label?_notMem_eraseIdx {cs : List Node} (hu : (cs.filterMap label?).Nodup) {k : Kind}
    {name : String} {i : Nat} (hi : cs.findIdx? (isNamed k (some name)) = some i) :
    (k, name) ∉ (cs.eraseIdx i).filterMap label? := by
  obtain ⟨hlt, hp, -⟩ := List.findIdx?_eq_some_iff_getElem.mp hi
  have hl : cs[i].label? = some (k, name) := isNamed_iff_label?.mp hp
  have hperm : (cs[i] :: cs.eraseIdx i).Perm cs := List.getElem_cons_eraseIdx_perm hlt
  rw [← (hperm.filterMap label?).nodup_iff, List.filterMap_cons_some hl, List.nodup_cons] at hu
  exact hu.1

theorem exists_of_findIdx?_isNamed {cs : List Node} {k : Kind} {name : Option String} {i : Nat}
    (hi : cs.findIdx? (isNamed k name) = some i) : ∃ c ∈ cs, cs[i]? = some c ∧ c.kind = k := by
  obtain ⟨hlt, hp, -⟩ := List.findIdx?_eq_some_iff_getElem.mp hi
  simp only [isNamed, Bool.and_eq_true, beq_iff_eq] at hp
  exact ⟨cs[i], List.getElem_mem hlt, List.getElem?_eq_getElem hlt, hp.1⟩

theorem label?_notMem_of_findIdx?_none {cs : List Node} {k : Kind} {name : String}
    (h : cs.findIdx? (isNamed k (some name)) = none) : (k, name) ∉ cs.filterMap label? := by
  intro hm
  obtain ⟨c, hc, hl⟩ := List.mem_filterMap.mp hm
  have := List.findIdx?_eq_none_iff.mp h c hc
  rw [isNamed_iff_label?.mpr hl] at this
  cases this

/-- The access of a node that takes the place of another one: its own, or else that of the other. -/
def accessAfter (node : Node) : Option Node → Option String
  | some old => if old.hasScope && !node.hasScope then old.scope else node.scope
  | none => node.scope

theorem withScope_self (n : Node) : n.withScope n.scope = n := by
  cases n
  rfl

/-- A node keeps its access where it has one, or the node that it replaces has none to hand on. -/
theorem accessAfter_of_hasScope (node : Node) {old : Option Node}
    (h : ∀ n, old = some n → n.hasScope = true → node.hasScope = true) :
    node.accessAfter old = node.scope := by
  cases old with
  | none => rfl
  | some old =>
    refine if_neg fun hboth => ?_
    rw [Bool.and_eq_true, Bool.not_eq_true'] at hboth
    exact Bool.false_ne_true (hboth.2.symm.trans (h old rfl hboth.1))

/-- How a node with a name to record is inserted. -/
theorem insertion?_eq (scope : Node) {node : Node} {name : String} (hname : node.name = some name)
    (hrec : isRecordable name = true) :
    scope.insertion? node = some
      { replaced := scope.children.findIdx? (isNamed node.kind (some name))
        position := (scope.children.eraseP (isNamed node.kind (some name))).findIdx (sortsAfter name)
        node := node.withScope
          (node.accessAfter (scope.children.find? (isNamed node.kind (some name)))) } := by
  unfold insertion?
  rw [hname]
  simp only [if_pos hrec, ← List.find?_eq_bind_findIdx?_getElem?, Option.some.injEq,
    Insertion.mk.injEq, true_and]
  constructor
  · rw [List.eraseP_eq_eraseIdx]
    cases scope.children.findIdx? (isNamed node.kind (some name)) <;> rfl
  · cases scope.children.find? (isNamed node.kind (some name)) with
    | none => exact node.withScope_self.symm
    | some old =>
      simp only [accessAfter]
      split
      · rfl
      · exact node.withScope_self.symm

/-- The children that are left when the one that an insertion replaces is gone. -/
def Insertion.rest (ins : Insertion) (children : List Node) : List Node :=
  match ins.replaced with
  | some i => children.eraseIdx i
  | none => children

theorem Insertion.apply_eq (ins : Insertion) (children : List Node) :
    ins.apply children = (ins.rest children).insertIdx ins.position ins.node := rfl

/-- A node whose name is not recorded is inserted nowhere. -/
theorem insertion?_eq_none (scope : Node) {node : Node}
    (h : ∀ name, node.name = some name → isRecordable name = false) : scope.insertion? node = none := by
  unfold insertion?
  split
  · rfl
  · rename_i name hname
    rw [if_neg (Bool.eq_false_iff.mp (h name hname))]

/-- What an insertion does, in terms of the scope and the node. -/
theorem insertion?_cases {scope node : Node} {ins : Insertion}
    (h : scope.insertion? node = some ins) :
    ∃ name, node.name = some name ∧ isRecordable name = true ∧
      ins.replaced = scope.children.findIdx? (isNamed node.kind (some name)) ∧
      ins.position = (ins.rest scope.children).findIdx (sortsAfter name) ∧
      (ins.node = node ∨ ∃ access, ins.node = node.withScope access) := by
  unfold insertion? at h
  split at h
  · cases h
  · rename_i name hname
    split at h
    · rename_i hrec
      cases h
      refine ⟨name, hname, hrec, rfl, rfl, ?_⟩
      dsimp only
      split
      · split
        · exact .inr ⟨_, rfl⟩
        · exact .inl rfl
      · exact .inl rfl
    · cases h

/-- The node that is inserted differs from the given one in its access at most. -/
theorem Insertion.node_eq {scope node : Node} {ins : Insertion}
    (h : scope.insertion? node = some ins) :
    ins.node.key = node.key ∧ ins.node.children = node.children := by
  obtain ⟨-, -, -, -, -, he | ⟨access, he⟩⟩ := insertion?_cases h
  · rw [he]
    exact ⟨rfl, rfl⟩
  · rw [he]
    exact ⟨rfl, rfl⟩

theorem Insertion.position_le {scope node : Node} {ins : Insertion}
    (h : scope.insertion? node = some ins) : ins.position ≤ (ins.rest scope.children).length := by
  obtain ⟨name, -, -, -, hpos, -⟩ := insertion?_cases h
  rw [hpos]
  exact List.findIdx_le_length

/-- The node that an insertion puts in is found where it was put. -/
theorem getElem?_apply {scope node : Node} {ins : Insertion}
    (h : scope.insertion? node = some ins) :
    (ins.apply scope.children)[ins.position]? = some ins.node := by
  rw [Insertion.apply_eq, List.getElem?_insertIdx_self, if_pos (Insertion.position_le h)]

/-- What an insertion leaves of the children are those of another kind or name. -/
theorem mem_rest_iff {scope node : Node} {ins : Insertion} (h : Arranged scope.children)
    (hins : scope.insertion? node = some ins) {n : Node} :
    n ∈ ins.rest scope.children ↔ n ∈ scope.children ∧ n.label? ≠ node.label? := by
  obtain ⟨name, hname, -, hrep, -, -⟩ := insertion?_cases hins
  have hlabel : node.label? = some (node.kind, name) := by rw [label?, hname, Option.map_some]
  rw [hlabel]
  unfold Insertion.rest
  cases hr : ins.replaced with
  | none =>
    have hnot := label?_notMem_of_findIdx?_none (hrep ▸ hr)
    exact ⟨fun hn => ⟨hn, fun he => hnot (List.mem_filterMap.mpr ⟨n, hn, he⟩)⟩, And.left⟩
  | some i =>
    obtain ⟨hlt, hp, -⟩ := List.findIdx?_eq_some_iff_getElem.mp (hrep.symm.trans hr)
    have hperm : (scope.children[i] :: scope.children.eraseIdx i).Perm scope.children :=
      List.getElem_cons_eraseIdx_perm hlt
    have hnot := label?_notMem_eraseIdx h.unique (hrep ▸ hr)
    refine ⟨fun hn => ⟨(List.eraseIdx_sublist _ i).subset hn,
      fun he => hnot (List.mem_filterMap.mpr ⟨n, hn, he⟩)⟩, fun ⟨hn, hne⟩ => ?_⟩
    rcases List.mem_cons.mp (hperm.mem_iff.mpr hn) with rfl | hn
    · exact absurd (isNamed_iff_label?.mp hp) hne
    · exact hn

/-- Which children there are after an insertion: the node, and those of another kind or name. -/
theorem mem_apply_iff {scope node : Node} {ins : Insertion} (h : Arranged scope.children)
    (hins : scope.insertion? node = some ins) {n : Node} :
    n ∈ ins.apply scope.children ↔
      n = ins.node ∨ n ∈ scope.children ∧ n.label? ≠ node.label? := by
  rw [Insertion.apply_eq, List.mem_insertIdx (Insertion.position_le hins), mem_rest_iff h hins]

/-- A node stays as it is where it has an access itself, or no child has one to hand on. -/
theorem exists_insertion?_of_hasScope {scope node : Node} {name : String}
    (hname : node.name = some name) (hrec : isRecordable name = true)
    (hs : ∀ c ∈ scope.children, c.hasScope = true → node.hasScope = true) :
    ∃ ins, scope.insertion? node = some ins ∧ ins.node = node := by
  refine ⟨_, insertion?_eq scope hname hrec, ?_⟩
  dsimp only
  rw [accessAfter_of_hasScope node fun n hn => hs n (List.mem_of_find?_eq_some hn), withScope_self]

/-- A node stays as it is where no child has an access to hand on. -/
theorem exists_insertion? {scope node : Node} {name : String} (hname : node.name = some name)
    (hrec : isRecordable name = true) (hs : ∀ c ∈ scope.children, c.hasScope = false) :
    ∃ ins, scope.insertion? node = some ins ∧ ins.node = node :=
  exists_insertion?_of_hasScope hname hrec fun c hc h => absurd ((hs c hc).symm.trans h) Bool.false_ne_true

/-- Taking the replaced node out and putting the new one in is one change of their scope. -/
theorem insertAt_removeAt {ins : Insertion} {i : Nat} (h : ins.replaced = some i) (n : Node)
    (home : Path) :
    (n.removeAt (home ++ [i])).insertAt ins.node (home ++ [ins.position]) =
      n.modifyAt (fun m => m.withChildren (ins.apply m.children)) home := by
  rw [insertAt_concat, removeAt_concat, modifyAt_modifyAt]
  simp only [Insertion.apply, h, withChildren]

theorem insertAt_of_replaced_none {ins : Insertion} (h : ins.replaced = none) (n : Node)
    (home : Path) :
    n.insertAt ins.node (home ++ [ins.position]) =
      n.modifyAt (fun m => m.withChildren (ins.apply m.children)) home := by
  rw [insertAt_concat]
  simp only [Insertion.apply, h]

/-- A node inserted into a scope leaves its children kept as they were. -/
theorem WellKept.insert {scope node : Node} {ins : Insertion} (h : WellKept scope)
    (hs : scope.kind.isScope = true) (hk : node.kind ≠ .description)
    (hins : scope.insertion? node = some ins) :
    WellKept (scope.withChildren (ins.apply scope.children)) := by
  have hcs := h.arranged hs
  have hkey := (Insertion.node_eq hins).1
  obtain ⟨name, hname, hrec, hrep, hpos, -⟩ := insertion?_cases hins
  have hrest : Arranged (ins.rest scope.children) ∧
      (node.kind, name) ∉ (ins.rest scope.children).filterMap label? := by
    unfold Insertion.rest
    cases hr : ins.replaced with
    | none => exact ⟨hcs, label?_notMem_of_findIdx?_none (hrep ▸ hr)⟩
    | some i =>
      exact ⟨hcs.sublist (List.eraseIdx_sublist _ i), label?_notMem_eraseIdx hcs.unique (hrep ▸ hr)⟩
  refine ⟨fun _ => ?_, fun hf => ?_⟩
  · rw [← kind_eq_of_key hkey] at hk hrest
    rw [show (scope.withChildren (ins.apply scope.children)).children =
      (ins.rest scope.children).insertIdx ins.position ins.node from rfl, hpos]
    exact hrest.1.insert ((name_eq_of_key hkey).trans hname) hrec hk hrest.2
  · change scope.kind = .function at hf
    rw [hf] at hs
    cases hs

/-! ## Trees -/

/-- Every node of a tree is well kept. -/
abbrev Kept (n : Node) : Prop := n.Everywhere WellKept

/-- Nothing is demanded of the children of a node that is neither a scope nor a function. -/
theorem wellKept_of_kind {n : Node} (hs : n.kind.isScope = false)
    (hf : (n.kind == .function) = false) : WellKept n :=
  ⟨fun h => absurd (hs.symm.trans h) (by decide), fun h => absurd h (by simpa using hf)⟩

theorem kept_of_children {n : Node} (h : WellKept n) (hc : ∀ c ∈ n.children, c.Kept) : n.Kept :=
  everywhere_iff.mpr ⟨h, hc⟩

/-- Only the kind and the children of a node are looked at. -/
theorem Kept.congr {m n : Node} (h : m.Kept) (hk : m.kind = n.kind) (hc : m.children = n.children) :
    n.Kept :=
  kept_of_children (wellKept_isLocal m n hk (by rw [hc]) h.self) fun _ hm => h.child (hc ▸ hm)

theorem kept_word (text : String) (spaced : Bool) : (word text spaced).Kept :=
  kept_of_children (wellKept_of_kind rfl rfl) (by simp [word])

theorem kept_descriptionOf (text : String) : (descriptionOf text).Kept := by
  refine kept_of_children (wellKept_of_kind rfl rfl) fun c hc => ?_
  unfold descriptionOf at hc
  dsimp only at hc
  split at hc
  · cases hc
  · rw [List.mem_singleton.mp hc]
    exact kept_of_children (wellKept_of_kind rfl rfl) (by simp [prose])

theorem Kept.describe {n : Node} (h : n.Kept) (raw : String) : (n.describe raw).Kept := by
  refine kept_of_children (h.self.describe raw) fun c hc => ?_
  rw [children_describe, List.mem_append, List.mem_singleton] at hc
  rcases hc with hc | rfl
  · exact h.child (List.eraseP_sublist.subset hc)
  · exact kept_descriptionOf _

theorem Kept.describeIf {n : Node} (h : n.Kept) (raw? : Option String) : (n.describeIf raw?).Kept := by
  cases raw? with
  | none => exact h
  | some raw => exact h.describe raw

theorem Kept.eraseIdx {n : Node} (h : n.Kept) (i : Nat) :
    (n.withChildren (n.children.eraseIdx i)).Kept :=
  kept_of_children (h.self.eraseIdx i) fun _ hc => h.child ((List.eraseIdx_sublist _ i).subset hc)

/-- Taking out the node that a path leads to. -/
theorem Kept.removeAt {n : Node} (h : n.Kept) (path : Path) :
    (n.removeAt path).Kept ∧ (n.removeAt path).key = n.key := by
  rcases List.eq_nil_or_concat path with rfl | ⟨home, i, rfl⟩
  · exact ⟨h, rfl⟩
  · rw [List.concat_eq_append, removeAt_concat]
    exact h.modifyAt wellKept_isLocal fun _ hm => ⟨Kept.eraseIdx (h.get? hm) i, rfl⟩

theorem Kept.describeAt {n : Node} (h : n.Kept) (raw : String) (path : Path) :
    (n.modifyAt (·.describe raw) path).Kept ∧ (n.modifyAt (·.describe raw) path).key = n.key :=
  h.modifyAt wellKept_isLocal fun _ hm => ⟨Kept.describe (h.get? hm) raw, key_describe _ raw⟩

theorem Kept.insert {scope node : Node} {ins : Insertion} (h : scope.Kept) (hn : node.Kept)
    (hs : scope.kind.isScope = true) (hk : node.kind ≠ .description)
    (hins : scope.insertion? node = some ins) :
    (scope.withChildren (ins.apply scope.children)).Kept := by
  refine kept_of_children (h.self.insert hs hk hins) fun c hc => ?_
  have hkey := Insertion.node_eq hins
  have hnode : ins.node.Kept := hn.congr (kind_eq_of_key hkey.1).symm hkey.2.symm
  have hrest : ∀ c ∈ ins.rest scope.children, c.Kept := by
    intro c hc
    unfold Insertion.rest at hc
    split at hc
    · exact h.child ((List.eraseIdx_sublist _ _).subset hc)
    · exact h.child hc
  rcases List.eq_or_mem_of_mem_insertIdx hc with rfl | hc
  · exact hnode
  · exact hrest c hc

end Node

end HeaderDocs
